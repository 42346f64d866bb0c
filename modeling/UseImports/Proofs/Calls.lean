import UseImports.Proofs.Declaration.Grammar
import UseImports.Proofs.Edit.Aliases
import UseImports.Proofs.Edit.Planned

/-!
# Calls of imported functions

A call (`scan_function_calls`) is the local name of an imported function as a word of its own, with
an open parenthesis behind it. The names come in no particular order. One way to seek them is to try
them one after the other at each place, the longer ones first, and to go on behind what is found;
then names that begin alike, names of one length and matches that overlap could make a difference.
They do not: a parenthesis, or the white space before it, ends a word, so at most one of the names
can be read at a place, and no name can begin inside of a match. So all calls are found, and their
order is that of the text.

* `Cursor.alternative?`, `callsAmong`: the names as a list of alternatives.
* `alternative?_eq_call?`: **the first alternative that can be read is the word at hand.**
* `endsInKeyword_iff`, `isQualifiedOrMember_iff`: what stands in front of a place.
* `CallAt`, `mem_functionCalls_iff`: **all calls are found**, and nothing else.
* `calls_exact`: the calls are told from the text, in whatever order the names are listed.
-/

namespace UseImports

open Cursor

variable {after front name : List Char} {names names' : List String} {p : Phrase}
    {ds : List Declaration}

/-! ## The names as alternatives -/

/-- The names with the longer ones first; names of one length keep their order. -/
def longestFirst (names : List String) : List String :=
  names.mergeSort fun a b => byteLength b.toList ≤ byteLength a.toList

/-- A word begins or ends at the place. -/
def Cursor.atWordBoundary (c : Cursor) : Bool :=
  c.before.head?.any isWordChar != c.after.head?.any isWordChar

/-- Reads the name with an open parenthesis behind it. -/
def Cursor.callOf? (name : String) (c : Cursor) : Option (Phrase × Cursor) :=
  (c.literal? name).bind fun stop => (stop.skipBlanks.literal? "(").map fun last =>
  (⟨c, stop⟩, last)

/-- Reads the first of the names that can be read, where a word begins or ends. -/
def Cursor.alternative? (names : List String) (c : Cursor) : Option (Phrase × Cursor) :=
  if c.atWordBoundary then names.findSome? fun name => c.callOf? name else none

/-- The calls that a reader of names finds: outside the import statements, and where what stands in
front lets the name be that of a function. -/
def callsBy (reader : Cursor → Option (Phrase × Cursor)) (d : Document) (ds : List Declaration) :
    List Reference :=
  let proper := ((atStart d.code).findAll reader).filter fun p =>
    !inImport ds p.start.offset && !isQualifiedOrMember p.start &&
    !endsInKeyword p.start.before ["new", "function", "fn"]
  proper.map fun p =>
    ⟨p.start.spanTo p.stop, String.ofList (p.start.upTo p.stop), .function, .functionCall⟩

/-- The calls of the functions with the given local names, which are tried one after the other. -/
def callsAmong (d : Document) (ds : List Declaration) (names : List String) : List Reference :=
  callsBy (alternative? (longestFirst names)) d ds

theorem functionCalls_eq_callsBy (d : Document) (ds : List Declaration) (names : List String) :
    functionCalls d ds names = callsBy (call? names) d ds := rfl

/-! ## What is read at a place -/

/-- A name in front of a parenthesis is the word at hand. -/
theorem takeWhile_word {gap : List Char} (hname : ∀ x ∈ name, isWordChar x = true)
    (hgap : ∀ x ∈ gap, isBlank x = true) (back : List Char) :
    (name ++ (gap ++ '(' :: back)).takeWhile isWordChar = name ∧
      (name ++ (gap ++ '(' :: back)).dropWhile isWordChar = gap ++ '(' :: back := by
  have hstop : ∃ x xs, gap ++ '(' :: back = x :: xs ∧ isWordChar x = false := by
    cases gap with
    | nil => exact ⟨'(', back, rfl, by decide⟩
    | cons x gap => exact ⟨x, _, rfl, isWordChar_of_isBlank (hgap x List.mem_cons_self)⟩
  obtain ⟨x, xs, hrest, hx⟩ := hstop
  rw [List.takeWhile_append_of_pos hname, List.dropWhile_append_of_pos hname, hrest,
    List.takeWhile_cons_of_neg (by simp [hx]), List.dropWhile_cons_of_neg (by simp [hx]),
    List.append_nil]
  exact ⟨rfl, rfl⟩

/-- The word at hand is read as a literal. -/
theorem literal?_word (c : Cursor) :
    c.literal? (String.ofList (c.after.takeWhile isWordChar)) = some (c.skipWhile isWordChar) := by
  have hprefix : c.after.takeWhile isWordChar <+: c.after := List.takeWhile_prefix _
  rw [literal?, String.toList_ofList, if_pos (List.isPrefixOf_iff_prefix.mpr hprefix), advance,
    ← List.prefix_iff_eq_take.mp hprefix, drop_length_takeWhile]
  rfl

/-- **Of all names only the word at hand can be read as a call.** -/
theorem callOf?_eq {name : String} (hname : IsIdent name.toList) (c : Cursor) :
    c.callOf? name = if String.ofList (c.after.takeWhile isWordChar) = name then
      ((c.skipWhile isWordChar).skipBlanks.literal? "(").map fun last =>
      (⟨c, c.skipWhile isWordChar⟩, last) else none := by
  unfold callOf?
  split
  · rename_i hword
    rw [← hword, literal?_word]
    rfl
  · rename_i hword
    rw [Option.bind_eq_none_iff]
    intro stop hstop
    rw [Option.map_eq_none_iff, Option.eq_none_iff_forall_ne_some]
    intro last hlast
    obtain ⟨rest, hafter, rfl⟩ := literal?_eq_some hstop
    obtain ⟨gap, back, rfl, hgap, -⟩ := paren?_eq_some_iff.mp hlast
    refine hword ?_
    rw [hafter, (takeWhile_word hname.word hgap back).1, String.ofList_toList]

/-- **The first alternative that can be read is the word at hand**, wherever it stands in the list.
-/
theorem alternative?_eq_call? (hnames : ∀ name ∈ names, IsIdent name.toList) (c : Cursor) :
    c.alternative? names = c.call? names := by
  have hne : "" ∉ names := fun h => (hnames "" h).ne_nil rfl
  have hfirst : (names.findSome? fun name => c.callOf? name) =
      if names.contains (String.ofList (c.after.takeWhile isWordChar)) then
        ((c.skipWhile isWordChar).skipBlanks.literal? "(").map fun last =>
        (⟨c, c.skipWhile isWordChar⟩, last) else none := by
    clear hne
    induction names with
    | nil => rfl
    | cons name names ih =>
      have hrest := ih fun n hn => hnames n (List.mem_cons_of_mem name hn)
      rw [List.findSome?_cons, callOf?_eq (hnames name List.mem_cons_self), hrest,
        List.contains_cons]
      by_cases hword : String.ofList (c.after.takeWhile isWordChar) = name
      · rw [if_pos hword, hword, beq_self_eq_true, Bool.true_or, if_pos rfl]
        cases (c.skipWhile isWordChar).skipBlanks.literal? "(" with
        | some last => rfl
        | none => exact ite_self none
      · rw [if_neg hword, beq_false_of_ne hword, Bool.false_or]
  unfold alternative?
  by_cases hword : c.after.head?.any isWordChar = true
  · -- where a word character follows, only the beginning of a word is a boundary
    have hboundary : c.atWordBoundary = c.atWordStart := by
      unfold atWordBoundary atWordStart
      rw [hword]
      cases c.before.head?.any isWordChar <;> rfl
    rw [hboundary, hfirst, call?_eq]
    cases c.atWordStart <;> rfl
  · rw [Bool.not_eq_true] at hword
    have hempty : names.contains "" = false := by simpa using hne
    rw [hfirst, call?_eq_none hne (.inr hword), takeWhile_of_head hword, String.ofList_nil, hempty]
    exact ite_self none

theorem longestFirst_perm (names : List String) : (longestFirst names).Perm names :=
  List.mergeSort_perm names _

/-- Which names are sought matters, and not their order. -/
theorem call?_congr (h : ∀ name, name ∈ names ↔ name ∈ names') : call? names = call? names' := by
  funext c
  have hcontains : ∀ name, names.contains name = names'.contains name := fun name => by
    rw [Bool.eq_iff_iff, List.contains_iff_mem, List.contains_iff_mem, h]
  rw [call?_eq, call?_eq, hcontains]

/-- **The calls do not depend on the order in which the names are listed.** -/
theorem callsAmong_eq (hperm : names.Perm names') (hnames : ∀ name ∈ names', IsIdent name.toList)
    (d : Document) (ds : List Declaration) : callsAmong d ds names = functionCalls d ds names' := by
  have hmem : ∀ name, name ∈ longestFirst names ↔ name ∈ names' := fun name =>
    ((longestFirst_perm names).trans hperm).mem_iff
  have hreader : alternative? (longestFirst names) = call? names' := by
    funext c
    rw [alternative?_eq_call? (fun name hname => hnames name ((hmem name).mp hname)),
      call?_congr hmem]
  rw [callsAmong, hreader, functionCalls_eq_callsBy]

/-! ## What stands in front -/

/-- The text ends in the word, in any case of its letters, and white space. -/
def EndsInWord (front : List Char) (word : String) : Prop :=
  ∃ A u g, front = A ++ (u ++ g) ∧ A.getLast?.any isIdentChar = false ∧
    eqIgnoreCase u word.toList = true ∧
    ∀ c ∈ g, isBlank c = true

theorem isWordChar_of_toLower {c : Char} (h : isWordChar c.toLower = true) :
    isWordChar c = true := by
  by_cases hupper : 'A'.val ≤ c.val ∧ c.val ≤ 'Z'.val
  · have hlt : c.toNat < 0x80 := Nat.lt_of_le_of_lt (UInt32.le_iff_toNat_le.mp hupper.2) (by decide)
    have hcase : c.isUpper = true := decide_eq_true hupper
    have hletter : c.isAlphanum = true :=
      Bool.or_eq_true_iff.mpr (.inl (Bool.or_eq_true_iff.mpr (.inl hcase)))
    rw [isWordChar, if_pos hlt, hletter]
    rfl
  · have hsame : c.toLower = c := dif_neg hupper
    rwa [hsame] at h

/-- A word in any case of its letters is made of word characters. -/
theorem isWordChar_of_eqIgnoreCase {u w : List Char}
    (hw : ∀ c ∈ w.map Char.toLower, isWordChar c = true) (h : eqIgnoreCase u w = true) :
    ∀ c ∈ u, isWordChar c = true := by
  intro c hc
  refine isWordChar_of_toLower (hw _ ?_)
  rw [← beq_iff_eq.mp h]
  exact List.mem_map_of_mem hc

/-- **The last word of a text is told from its end.** -/
theorem endsInKeyword_iff {keywords : List String}
    (hwords : ∀ k ∈ keywords, k.toList ≠ [] ∧ ∀ c ∈ k.toList.map Char.toLower,
      isWordChar c = true) :
    endsInKeyword front.reverse keywords = true ↔ ∃ k ∈ keywords, EndsInWord front k := by
  unfold endsInKeyword
  rw [List.any_eq_true]
  refine exists_congr fun k => and_congr_right fun hk => ⟨fun h => ?_, ?_⟩
  · have hblanks := front.reverse.takeWhile_append_dropWhile (p := isBlank)
    have hword := (front.reverse.dropWhile isBlank).takeWhile_append_dropWhile (p := isIdentChar)
    refine ⟨((front.reverse.dropWhile isBlank).dropWhile isIdentChar).reverse, _,
      (front.reverse.takeWhile isBlank).reverse, ?_, ?_, h,
      fun c hc => List.mem_takeWhile_imp (List.mem_reverse.mp hc)⟩
    · rw [← List.reverse_append, ← List.reverse_append, List.append_assoc, hword, hblanks,
        List.reverse_reverse]
    · rw [List.getLast?_reverse]
      have hstop := List.head?_dropWhile_not isIdentChar (front.reverse.dropWhile isBlank)
      cases hhead : ((front.reverse.dropWhile isBlank).dropWhile isIdentChar).head? with
      | none => rfl
      | some c =>
        rw [hhead] at hstop
        simpa using hstop
  · rintro ⟨A, u, g, rfl, hA, hu, hg⟩
    obtain ⟨hne, hletters⟩ := hwords k hk
    have hchars := isWordChar_of_eqIgnoreCase hletters hu
    have hune : u.reverse ≠ [] := by
      rintro hnil
      rw [List.reverse_eq_nil_iff.mp hnil] at hu
      have hlen := congrArg List.length (beq_iff_eq.mp hu)
      rw [List.length_map, List.length_map] at hlen
      exact hne (List.eq_nil_of_length_eq_zero hlen.symm)
    have hvisible : (u.reverse ++ A.reverse).dropWhile isBlank = u.reverse ++ A.reverse := by
      refine dropWhile_of_head fun c hc => ?_
      rw [List.head?_append_of_ne_nil _ hune] at hc
      exact isBlank_of_isWordChar (hchars c (List.mem_reverse.mp (List.mem_of_mem_head? hc)))
    have hfront : A.reverse.takeWhile isIdentChar = [] :=
      takeWhile_of_head (by rw [List.head?_reverse, hA])
    have hword : ((A ++ (u ++ g)).reverse.dropWhile isBlank).takeWhile isIdentChar = u.reverse := by
      rw [List.reverse_append, List.reverse_append, List.append_assoc,
        List.dropWhile_append_of_pos fun c hc => hg c (List.mem_reverse.mp hc), hvisible,
        List.takeWhile_append_of_pos fun c hc =>
          isIdentChar_of_isWordChar (hchars c (List.mem_reverse.mp hc)), hfront,
        List.append_nil]
    rw [hword, List.reverse_reverse]
    exact hu

/-- What marks a name as part of a longer one, as a variable or as a member. -/
def memberMarks : List String :=
  ["\\", "$", "->", "::"]

theorem isQualifiedOrMember_iff :
    isQualifiedOrMember ⟨front.reverse, after⟩ = true ↔ ∃ mark ∈ memberMarks,
    mark.toList <:+ front := by
  have hsuffix : ∀ mark : String, mark.toList <:+ front ↔
      mark.toList.reverse <+: front.reverse := fun mark =>
    List.reverse_prefix.symm
  simp only [hsuffix]
  generalize front.reverse = before
  have hmarks : (∃ mark ∈ memberMarks, mark.toList.reverse <+: before) ↔
      ['\\'] <+: before ∨ ['$'] <+: before ∨ ['>', '-'] <+: before ∨ [':', ':'] <+: before := by
    simp [memberMarks]
  rw [hmarks]
  unfold isQualifiedOrMember
  dsimp only
  split
  · simp
  · simp
  · simp
  · simp
  · rename_i hslash hdollar harrow hcolons
    refine iff_of_false (by simp) ?_
    rintro (⟨t, ht⟩ | ⟨t, ht⟩ | ⟨t, ht⟩ | ⟨t, ht⟩)
    · exact hslash t ht.symm
    · exact hdollar t ht.symm
    · exact harrow t ht.symm
    · exact hcolons t ht.symm

/-! ## Every call is found -/

/-- The phrase of a name with `rest` behind it. -/
def callPhrase (front name rest : List Char) : Phrase :=
  ⟨⟨front.reverse, name ++ rest⟩, ⟨name.reverse ++ front.reverse, rest⟩⟩

/-- What is found at every place of a text. -/
theorem mem_findEvery_iff {α : Type} {r : Cursor → Option (α × Cursor)}
    {before cs : List Char} {a : α} :
    a ∈ findEvery r before cs ↔
      ∃ front after, cs = front ++ after ∧ after ≠ [] ∧ ∃ last, r ⟨front.reverse ++ before, after⟩ =
        some (a, last) := by
  induction cs generalizing before with
  | nil =>
    refine iff_of_false List.not_mem_nil ?_
    rintro ⟨front, after, hnil, hne, -⟩
    exact hne (List.append_eq_nil_iff.mp hnil.symm).2
  | cons c cs ih =>
    rw [findEvery, List.mem_append, Option.mem_toList, Option.map_eq_some_iff, ih]
    constructor
    · rintro (⟨⟨a', last⟩, hread, rfl⟩ | ⟨front, after, rfl, hne, last, hread⟩)
      · exact ⟨[], c :: cs, rfl, List.cons_ne_nil c cs, last, hread⟩
      · exact ⟨c :: front, after, rfl, hne, last, by simpa using hread⟩
    · rintro ⟨front, after, hcs, hne, last, hread⟩
      cases front with
      | nil =>
        obtain rfl : c :: cs = after := hcs
        exact .inl ⟨(a, last), hread, rfl⟩
      | cons x front =>
        obtain ⟨rfl, rfl⟩ := List.cons.inj hcs
        exact .inr ⟨front, after, rfl, hne, last, by simpa using hread⟩

/-- What is read as a call begins at the place and ends with the parenthesis. -/
theorem call?_place {c last : Cursor} (h : call? names c = some (p, last)) :
    (p.start, p.stop.skipBlanks.advance 1) = (c, last) := by
  rw [call?_eq] at h
  split at h
  · obtain ⟨last', hparen, heq⟩ := Option.map_eq_some_iff.mp h
    obtain ⟨rfl, rfl⟩ := Prod.mk.inj heq
    unfold literal? at hparen
    split at hparen
    · rw [← Option.some.inj hparen]
      rfl
    · cases hparen
  · cases h

section Names

variable (hnames : ∀ name ∈ names, IsIdent name.toList)

include hnames

/-- What is read as a call is one of the names, as a word of its own, with a parenthesis behind it.
-/
theorem call?_eq_some_iff :
    (∃ last, call? names ⟨front.reverse, after⟩ = some (p, last)) ↔
      front.getLast?.any isWordChar = false ∧ ∃ name gap back, after =
        name ++ (gap ++ '(' :: back) ∧
        String.ofList name ∈ names ∧ (∀ x ∈ gap, isBlank x = true) ∧
        p = callPhrase front name (gap ++ '(' :: back) := by
  have hstart : atWordStart ⟨front.reverse, after⟩ = true ↔
      front.getLast?.any isWordChar = false := by
    simp [atWordStart, List.head?_reverse]
  rw [← hstart]
  constructor
  · rintro ⟨last, hcall⟩
    rw [call?_eq] at hcall
    split at hcall
    · rename_i hword
      rw [Bool.and_eq_true, List.contains_iff_mem] at hword
      obtain ⟨last', hparen, heq⟩ := Option.map_eq_some_iff.mp hcall
      obtain ⟨gap, back, hrest, hgap, -⟩ := paren?_eq_some_iff.mp hparen
      have hdrop : after.dropWhile isWordChar = gap ++ '(' :: back := hrest
      have hsplit := after.takeWhile_append_dropWhile (p := isWordChar)
      rw [hdrop] at hsplit
      refine ⟨hword.1, _, gap, back, hsplit.symm, hword.2, hgap, ?_⟩
      rw [← (Prod.mk.inj heq).1, callPhrase, skipWhile, hdrop, hsplit]
    · cases hcall
  · rintro ⟨hbegins, name, gap, back, rfl, hmem, hgap, rfl⟩
    have hword : ∀ x ∈ name, isWordChar x = true := by
      have := (hnames _ hmem).word
      rwa [String.toList_ofList] at this
    obtain ⟨htake, hdrop⟩ := takeWhile_word hword hgap back
    have hparen := (paren?_eq_some_iff (c := ⟨name.reverse ++ front.reverse,
      gap ++ '(' :: back⟩)).mpr ⟨gap, back, rfl, hgap, rfl⟩
    refine ⟨⟨'(' :: (gap.reverse ++ (name.reverse ++ front.reverse)), back⟩, ?_⟩
    rw [call?_eq, hbegins, Bool.true_and, htake, if_pos (List.contains_iff_mem.mpr hmem), skipWhile,
      htake, hdrop, hparen]
    rfl

/-- **A search finds every call.** -/
theorem mem_findAll_call_iff {code : List Char} :
    p ∈ (atStart code).findAll (call? names) ↔
    ∃ front name gap back, code = front ++ (name ++ (gap ++ '(' :: back)) ∧
      front.getLast?.any isWordChar = false ∧
      String.ofList name ∈ names ∧ (∀ x ∈ gap, isBlank x = true) ∧
      p = callPhrase front name (gap ++ '(' :: back) := by
  have hne : "" ∉ names := fun h => (hnames "" h).ne_nil rfl
  rw [findAll_call hne, mem_findEvery_iff]
  constructor
  · rintro ⟨front, after, rfl, -, hread⟩
    rw [List.append_nil] at hread
    obtain ⟨hbegins, name, gap, back, rfl, hname, hgap, rfl⟩ := (call?_eq_some_iff hnames).mp hread
    exact ⟨front, name, gap, back, rfl, hbegins, hname, hgap, rfl⟩
  · rintro ⟨front, name, gap, back, rfl, hbegins, hname, hgap, rfl⟩
    refine ⟨front, name ++ (gap ++ '(' :: back), rfl, by simp, ?_⟩
    rw [List.append_nil]
    exact (call?_eq_some_iff hnames).mpr ⟨hbegins, name, gap, back, rfl, hname, hgap, rfl⟩

/-- **The calls come one behind the other.** -/
theorem findAll_call_pairwise (code : List Char) :
    ((atStart code).findAll (call? names)).Pairwise fun p q =>
    p.stop.offset < q.start.offset := by
  have hempty : "" ∉ names := fun h => (hnames "" h).ne_nil rfl
  have hforward : ∀ {c : Cursor} {p : Phrase} {last : Cursor}, call? names c = some (p, last) →
      (p.start, p.stop.skipBlanks.advance 1) = (c, last) ∧ c.Reaches last := fun h =>
    ⟨call?_place h, (located_call hempty).forward h⟩
  refine (findFrom_pairwise hforward 0 [] code).2.imp_of_mem fun {p q} hp hq hle => ?_
  obtain ⟨front, name, gap, back, hcode, -, -, hgap, rfl⟩ := (mem_findAll_call_iff hnames).mp hp
  obtain ⟨front', name', gap', back', hcode', -, -, -, rfl⟩ := (mem_findAll_call_iff hnames).mp hq
  -- the parenthesis of the first call stands in front of the second
  dsimp only [callPhrase] at hle
  rw [skipBlanks_paren hgap] at hle
  simp only [advance, List.length_append, List.length_reverse, List.length_take,
    List.length_cons] at hle
  have hprefix : front ++ name <+: front' := by
    have hfront : front ++ name <+: code := ⟨gap ++ '(' :: back, by rw [hcode, List.append_assoc]⟩
    refine List.prefix_of_prefix_length_le hfront ⟨_, hcode'.symm⟩ ?_
    rw [List.length_append]
    omega
  obtain ⟨t, rfl⟩ := hprefix
  have hne : t ≠ [] := by
    rintro rfl
    simp only [List.append_nil, List.length_append] at hle
    omega
  have hpos := byteLength_pos hne
  simp only [callPhrase, offset, byteLength_append, byteLength_reverse]
  omega

/-- The place of a call in a code with the given import statements: a word with a parenthesis behind
it, outside the statements, and not marked as anything else than the name of a function. -/
structure CallAt (code : List Char) (ds : List Declaration) (front name : List Char) : Prop where
  text : ∃ gap back, code = front ++ (name ++ (gap ++ '(' :: back)) ∧ ∀ x ∈ gap, isBlank x = true
  begins : front.getLast?.any isWordChar = false
  outside : ∀ d ∈ ds, ¬ (d.statement.start ≤ byteLength front ∧ byteLength front < d.statement.stop)
  unqualified : ∀ mark ∈ memberMarks, ¬ mark.toList <:+ front
  undeclared : ∀ word ∈ ["new", "function", "fn"], ¬ EndsInWord front word

/-- The reference of a call. -/
def callReference (front name : List Char) : Reference :=
  ⟨⟨byteLength front, byteLength front + byteLength name⟩, String.ofList name,
    .function, .functionCall⟩

omit hnames in
/-- What is asked about the place of a phrase. -/
theorem proper_iff {rest : List Char} :
    (!inImport ds (callPhrase front name rest).start.offset && !isQualifiedOrMember
      (callPhrase front name rest).start &&
        !endsInKeyword (callPhrase front name rest).start.before ["new", "function", "fn"]) = true ↔
      (∀ d ∈ ds, ¬ (d.statement.start ≤ byteLength front ∧ byteLength front < d.statement.stop)) ∧
        (∀ mark ∈ memberMarks, ¬ mark.toList <:+ front) ∧ ∀ word ∈ ["new", "function", "fn"],
        ¬ EndsInWord front word := by
  have hoffset : (callPhrase front name rest).start.offset = byteLength front :=
    byteLength_reverse front
  have hinside : inImport ds (byteLength front) = true ↔
      ∃ d ∈ ds, d.statement.start ≤ byteLength front ∧ byteLength front < d.statement.stop := by
    rw [inImport, List.any_eq_true]
    exact exists_congr fun d => and_congr_right fun _ => Span.contains_iff
  have hmember : isQualifiedOrMember (callPhrase front name rest).start = true ↔ _ :=
    isQualifiedOrMember_iff
  have hkeyword : endsInKeyword (callPhrase front name rest).start.before ["new", "function",
      "fn"] = true ↔ _ :=
    endsInKeyword_iff (by decide)
  rw [hoffset, Bool.and_eq_true, Bool.and_eq_true, Bool.not_eq_true', Bool.not_eq_true',
    Bool.not_eq_true',
    ← Bool.not_eq_true, ← Bool.not_eq_true, ← Bool.not_eq_true, hinside, hmember,
    hkeyword, and_assoc]
  simp only [not_exists, not_and]

/-- **The calls that are found are all there are.** -/
theorem mem_functionCalls_iff {d : Document} {r : Reference} :
    r ∈ functionCalls d ds names ↔
    ∃ front name, CallAt d.code ds front name ∧ String.ofList name ∈ names ∧
      r = callReference front name := by
  have hreference : ∀ front name rest : List Char,
      (⟨(callPhrase front name rest).start.spanTo (callPhrase front name rest).stop,
        String.ofList ((callPhrase front name rest).start.upTo (callPhrase front name rest).stop),
        .function,
        .functionCall⟩ : Reference) = callReference front name := fun front name rest => by
    simp [callPhrase, callReference, spanTo, offset, upTo, Nat.add_comm]
  unfold functionCalls
  simp only [List.mem_map, List.mem_filter, mem_findAll_call_iff hnames]
  constructor
  · rintro ⟨p, ⟨⟨front, name, gap, back, hcode, hbegins, hname, hgap, rfl⟩, hproper⟩, rfl⟩
    obtain ⟨houtside, hplain, hword⟩ := proper_iff.mp hproper
    exact ⟨front, name, ⟨⟨gap, back, hcode, hgap⟩, hbegins, houtside, hplain, hword⟩, hname,
      hreference front name _⟩
  · rintro ⟨front, name, ⟨⟨gap, back, hcode, hgap⟩, hbegins, houtside, hplain, hword⟩, hname, rfl⟩
    exact ⟨_, ⟨⟨front, name, gap, back, hcode, hbegins, hname, hgap, rfl⟩,
      proper_iff.mpr ⟨houtside, hplain, hword⟩⟩, hreference front name _⟩

theorem functionCalls_pairwise (d : Document) (ds : List Declaration) :
    (functionCalls d ds names).Pairwise fun r s => r.span.stop < s.span.start := by
  unfold functionCalls
  exact List.pairwise_map.mpr ((findAll_call_pairwise hnames d.code).filter _)

end Names

/-! ## Imported functions -/

/-- An import that is read from a document is known under an identifier. -/
theorem isIdent_localName {doc : Document} {e : Declaration} (he : e ∈ doc.declarations) :
    IsIdent e.localName.toList := by
  have hnamed := wellNamed_of_mem_declarations he
  unfold Declaration.localName
  cases halias : e.aliasName with
  | none => exact hnamed.fqn.cases_shortName.1
  | some a => exact hnamed.aliasName a halias

/-- **The calls are told from the text**, in whatever order the names of the functions are listed.
-/
theorem calls_exact {es : List Declaration}
    (hread : ∀ e ∈ es, ∃ doc : Document, e ∈ doc.declarations) {names : List String}
    (hlisted : names.Perm ((AliasTable.build es).names .function)) (d : Document)
    (ds : List Declaration) :
    callsAmong d ds names = functionCalls d ds ((AliasTable.build es).names .function) ∧
      ((callsAmong d ds names).Pairwise fun r s => r.span.stop < s.span.start) ∧
      ∀ r, r ∈ callsAmong d ds names ↔ ∃ front name, CallAt d.code ds front name ∧
        (∃ e ∈ es, e.kind = .function ∧ e.localName = String.ofList name) ∧
        r = callReference front name := by
  have hnames : ∀ name ∈ (AliasTable.build es).names .function, IsIdent name.toList := by
    intro name hname
    obtain ⟨e, he, -, rfl⟩ := mem_names_iff.mp hname
    obtain ⟨doc, hdoc⟩ := hread e he
    exact isIdent_localName hdoc
  have hcalls := callsAmong_eq hlisted hnames d ds
  refine ⟨hcalls, ?_, fun r => ?_⟩
  · rw [hcalls]
    exact functionCalls_pairwise hnames d ds
  · rw [hcalls, mem_functionCalls_iff hnames]
    simp only [mem_names_iff]

/-- Two names that begin alike, listed with the shorter one first, and a call among the arguments of
another one. A method and the name of a class are no calls. -/
theorem calls_exact_nested : ∃ d : Document,
    d.code = "use function A\\f_g, A\\f; f_g(f (1)); $x->f(2); new f(3);".toList ∧
      ["f", "f_g"].Perm ((AliasTable.build d.declarations).names .function) ∧
      callsAmong d d.declarations ["f", "f_g"] =
        [⟨⟨25, 28⟩, "f_g", .function, .functionCall⟩,
          ⟨⟨29, 30⟩, "f", .function, .functionCall⟩] := by
  have hlisted : ["f", "f_g"].Perm ((AliasTable.build (Document.mk []
      "use function A\\f_g, A\\f; f_g(f (1)); $x->f(2); new f(3);".toList).declarations).names
        .function) := by
    decide +kernel
  refine ⟨_, rfl, hlisted, ?_⟩
  rw [(calls_exact (fun e he => ⟨_, he⟩) hlisted _ _).1]
  decide +kernel

end UseImports
