import UseImports.Proofs.Text.Phrases

/-!
# Import regions

An offset lies in an import region (`import_level_regions`) when every brace that is open there was
opened by a namespace. So the regions are known from the stack of open braces, and that stack is
built up piece by piece.

* `openBraces`: the stack of open braces behind a text.
* `importRegions_contains`: **the regions in terms of the stack.**
* `namespaceBraces_append`: the braces of namespaces are found piece by piece.
* `importLevel_front`, `importLevel_back`: the stack of a piece and of the whole text.
-/

namespace UseImports

open Placed Cursor

variable {k offset : Nat} {braces outer : List Bool} {region : Option Nat} {cs p p' : List Char}
    {c : Char} {n : NamespaceClause}

/-! ## The stack of open braces -/

/-- The open braces behind one more character. -/
def braceStep (opensNamespace : Bool) (braces : List Bool) (c : Char) : List Bool :=
  if c = '{' then opensNamespace :: braces else if c = '}' then braces.drop 1 else braces

/-- The braces that are open behind a text, innermost first, each marked whether a namespace opened
it. -/
def openBraces (opensNamespace : Nat → Bool) : (offset : Nat) → List Bool → List Char → List Bool
  | _, braces, [] => braces
  | offset, braces, c :: cs =>
    openBraces opensNamespace (offset + c.utf8Size) (braceStep (opensNamespace offset) braces c) cs

@[simp] theorem openBraces_nil (opens : Nat → Bool) (offset : Nat) (braces : List Bool) :
    openBraces opens offset braces [] = braces := rfl

theorem openBraces_cons (opens : Nat → Bool) (offset : Nat) (braces : List Bool) (c : Char)
    (cs : List Char) : openBraces opens offset braces (c :: cs) =
      openBraces opens (offset + c.utf8Size) (braceStep (opens offset) braces c) cs := rfl

section Stack

variable {opens : Nat → Bool}

theorem utf8Size_brace : ('{' : Char).utf8Size = 1 ∧ ('}' : Char).utf8Size = 1 := by decide

theorem regionsFrom_cons (opens : Nat → Bool) (offset : Nat) (braces : List Bool)
    (region : Option Nat) (c : Char) (cs : List Char) :
    regionsFrom opens offset braces region (c :: cs) =
      if c = '{' then
        if opens offset then regionsFrom opens (offset + 1) (true :: braces) region cs
        else match region with
          | some start =>
            ⟨start, offset⟩ :: regionsFrom opens (offset + 1) (false :: braces) none cs
          | none => regionsFrom opens (offset + 1) (false :: braces) none cs
      else if c = '}' then
        regionsFrom opens (offset + 1) (braces.drop 1)
          (if region.isNone && (braces.drop 1).all id then some (offset + 1) else region) cs
      else regionsFrom opens (offset + c.utf8Size) braces region cs := by
  cases region <;> rfl

/-- The regions that are found from an offset on lie behind it, the one that is still open apart. -/
theorem start_of_mem_regionsFrom {s : Span} (h : s ∈ regionsFrom opens offset braces region cs) :
    region = some s.start ∨ offset ≤ s.start := by
  induction cs generalizing offset braces region with
  | nil =>
    cases region with
    | none => simp [regionsFrom] at h
    | some start =>
      simp only [regionsFrom, List.mem_singleton] at h
      subst h
      exact .inl rfl
  | cons c cs ih =>
    rw [regionsFrom_cons] at h
    split at h
    · split at h
      · exact (ih h).imp_right fun h => by omega
      · cases region with
        | none => exact (ih h).imp_right fun h => by omega
        | some start =>
          rcases List.mem_cons.mp h with rfl | h
          · exact .inl rfl
          · rcases ih h with h | h
            · cases h
            · exact .inr (by omega)
    · split at h
      · rcases ih h with h | h
        · split at h
          · have := Option.some.inj h
            exact .inr (by omega)
          · exact .inl h
        · exact .inr (by omega)
      · exact (ih h).imp_right fun h => by omega

/-- A region that is open at an offset reaches at least up to there. -/
theorem exists_mem_regionsFrom (opens : Nat → Bool) (offset : Nat) (braces : List Bool)
    (start : Nat) (cs : List Char) :
    ∃ s ∈ regionsFrom opens offset braces (some start) cs, s.start = start ∧ offset ≤ s.stop := by
  induction cs generalizing offset braces with
  | nil => exact ⟨⟨start, offset⟩, by simp [regionsFrom], rfl, Nat.le_refl _⟩
  | cons c cs ih =>
    rw [regionsFrom_cons]
    split
    · split
      · obtain ⟨s, hs, hstart, hstop⟩ := ih (offset + 1) (true :: braces)
        exact ⟨s, hs, hstart, by omega⟩
      · exact ⟨⟨start, offset⟩, List.mem_cons_self, rfl, Nat.le_refl _⟩
    · split
      · obtain ⟨s, hs, hstart, hstop⟩ := ih (offset + 1) (braces.drop 1)
        exact ⟨s, by simpa using hs, hstart, by omega⟩
      · obtain ⟨s, hs, hstart, hstop⟩ := ih (offset + c.utf8Size) braces
        exact ⟨s, hs, hstart, by omega⟩

theorem all_id_drop (h : braces.all id = true) : (braces.drop 1).all id = true := by
  cases braces with
  | nil => rfl
  | cons b bs =>
    simp only [List.all_cons, Bool.and_eq_true] at h
    exact h.2

/-- A byte of the character at hand lies in a region if one is open, unless the character opens a
brace of another kind. -/
theorem regionsFrom_cons_contains (hstart : ∀ s, region = some s → s ≤ offset) (braces : List Bool)
    (hk : k < c.utf8Size) (b : List Char) :
    (regionsFrom opens offset braces region (c :: b)).any (·.contains (offset + k)) =
      (region.isSome && (c != '{' || opens offset)) := by
  have hopen : ∀ {start o : Nat} {braces : List Bool}, start ≤ offset → offset + k < o →
      (regionsFrom opens o braces (some start) b).any (·.contains (offset + k)) = true :=
        fun hle hlt => by
    obtain ⟨s, hs, hst, hstop⟩ := exists_mem_regionsFrom opens _ _ _ b
    exact List.any_eq_true.mpr ⟨s, hs, Span.contains_iff.mpr ⟨by omega, by omega⟩⟩
  have hlater : ∀ {o : Nat} {braces : List Bool} {later : Option Nat},
      (∀ s, later = some s → offset + k < s) →
      offset + k < o → (regionsFrom opens o braces later b).any (·.contains (offset + k)) = false :=
        fun hregion hlt => by
    refine List.any_eq_false.mpr fun s hs hc => ?_
    have := (Span.contains_iff.mp hc).1
    rcases start_of_mem_regionsFrom hs with h | h
    · exact absurd (hregion _ h) (by omega)
    · omega
  rw [regionsFrom_cons]
  by_cases hc : c = '{'
  · subst hc
    rw [utf8Size_brace.1] at hk
    rw [if_pos rfl]
    cases ho : opens offset with
    | true =>
      rw [if_pos rfl]
      cases region with
      | none => exact hlater (by simp) (by omega)
      | some start => exact hopen (hstart start rfl) (by omega)
    | false =>
      rw [if_neg (by simp)]
      have hnone := @hlater (offset + 1) (false :: braces) none (by simp) (by omega)
      cases region with
      | none => exact hnone
      | some start =>
        have hclosed : (Span.mk start offset).contains (offset + k) = false := by
          rw [Bool.eq_false_iff, Ne, Span.contains_iff]
          dsimp only
          omega
        rw [List.any_cons, hnone, hclosed]
        rfl
  · have hother : (c != '{') = true := by simpa using hc
    rw [if_neg hc, hother, Bool.true_or, Bool.and_true]
    by_cases hc' : c = '}'
    · subst hc'
      rw [utf8Size_brace.2] at hk
      rw [if_pos rfl]
      cases region with
      | none =>
        refine hlater (fun s hs => ?_) (by omega)
        simp only [Option.isNone_none, Bool.true_and] at hs
        split at hs
        · have := Option.some.inj hs
          omega
        · cases hs
      | some start => exact hopen (hstart start rfl) (by omega)
    · rw [if_neg hc']
      cases region with
      | none => exact hlater (by simp) (by omega)
      | some start => exact hopen (hstart start rfl) (by omega)

/-- The regions from an offset on. What is carried along is that a region is open exactly while
all open braces are those of namespaces. -/
theorem regionsFrom_contains {offset : Nat} {braces : List Bool} {region : Option Nat}
    {a : List Char} (hregion : region.isSome = braces.all id)
    (hstart : ∀ s, region = some s → s ≤ offset) {c : Char} {k : Nat} (hk : k < c.utf8Size)
    (b : List Char) :
    (regionsFrom opens offset braces region (a ++ c :: b)).any
    (·.contains (offset + byteLength a + k)) =
      ((openBraces opens offset braces a).all id &&
        (c != '{' || opens (offset + byteLength a))) := by
  induction a generalizing offset braces region with
  | nil =>
    rw [List.nil_append, openBraces_nil, byteLength_nil, Nat.add_zero, ← hregion]
    exact regionsFrom_cons_contains hstart braces hk b
  | cons x a ih =>
    have hle : ∀ s, region = some s → s ≤ offset + 1 := fun s hs => by
      have := hstart s hs
      omega
    rw [List.cons_append, regionsFrom_cons, openBraces_cons, byteLength_cons, ← Nat.add_assoc]
    unfold braceStep
    by_cases hx : x = '{'
    · subst hx
      rw [if_pos rfl, if_pos rfl, utf8Size_brace.1]
      cases ho : opens offset with
      | true =>
        rw [if_pos rfl]
        exact ih (by simpa using hregion) hle
      | false =>
        rw [if_neg (by simp)]
        have hnone := @ih (offset + 1) (false :: braces) none (by simp) (by simp)
        cases region with
        | none => exact hnone
        | some start =>
          have hclosed : (Span.mk start offset).contains (offset + 1 + byteLength a + k) =
              false := by
            rw [Bool.eq_false_iff, Ne, Span.contains_iff]
            dsimp only
            omega
          rw [List.any_cons, hnone, hclosed, Bool.false_or]
    · by_cases hx' : x = '}'
      · subst hx'
        rw [if_neg hx, if_pos rfl, if_neg hx, if_pos rfl, utf8Size_brace.2]
        refine ih ?_ ?_
        · cases region with
          | none => cases (braces.drop 1).all id <;> simp
          | some start =>
            have hall : braces.all id = true := by simpa using hregion.symm
            simpa using (all_id_drop hall).symm
        · intro s hs
          cases region with
          | none =>
            simp only [Option.isNone_none, Bool.true_and] at hs
            split at hs
            · cases hs; exact Nat.le_refl _
            · cases hs
          | some start => exact hle s (by simpa using hs)
      · rw [if_neg hx, if_neg hx', if_neg hx, if_neg hx']
        exact ih hregion fun s hs => by
          have := hstart s hs
          omega

theorem openBraces_append (offset : Nat) (braces : List Bool) (a b : List Char) :
    openBraces opens offset braces (a ++ b) =
      openBraces opens (offset + byteLength a) (openBraces opens offset braces a) b := by
  induction a generalizing offset braces with
  | nil => simp
  | cons c a ih =>
    rw [List.cons_append, openBraces_cons, openBraces_cons, ih, byteLength_cons, Nat.add_assoc]

/-- Only the marks of the braces in the text matter. -/
theorem openBraces_congr {opens' : Nat → Bool} {a : List Char}
    (h : ∀ k, offset ≤ k → k < offset + byteLength a → opens k = opens' k) (braces : List Bool) :
    openBraces opens offset braces a = openBraces opens' offset braces a := by
  induction a generalizing offset braces with
  | nil => rfl
  | cons c a ih =>
    have hpos := c.utf8Size_pos
    rw [byteLength_cons] at h
    rw [openBraces_cons, openBraces_cons, h offset (Nat.le_refl _) (by omega)]
    exact ih (fun k hk hk' => h k (by omega) (by omega)) _

theorem openBraces_shift (n offset : Nat) (braces : List Bool) (a : List Char) :
    openBraces opens (n + offset) braces a =
      openBraces (fun k => opens (n + k)) offset braces a := by
  induction a generalizing offset braces with
  | nil => rfl
  | cons c a ih => rw [openBraces_cons, openBraces_cons, Nat.add_assoc, ih]

/-- Braces of namespaces around a piece do not show in it: as long as they are open all is as if
they were not there, and when they are closed none is. -/
theorem openBraces_below (opens : Nat → Bool) (h : outer.all id = true) (offset : Nat)
    (inner : List Bool) (a : List Char) :
    ∃ outer', outer'.all id = true ∧
      openBraces opens offset (inner ++ outer) a = openBraces opens offset inner a ++ outer' := by
  induction a generalizing offset inner outer with
  | nil => exact ⟨outer, h, rfl⟩
  | cons c a ih =>
    rw [openBraces_cons, openBraces_cons]
    unfold braceStep
    split
    · exact ih h _ (opens offset :: inner)
    · split
      · cases inner with
        | nil => exact ih (all_id_drop h) _ []
        | cons b inner => exact ih h _ inner
      · exact ih h _ inner

theorem all_openBraces_below (h : outer.all id = true) (offset : Nat) (a : List Char) :
    (openBraces opens offset outer a).all id = (openBraces opens offset [] a).all id := by
  obtain ⟨outer', h', heq⟩ := openBraces_below opens h offset [] a
  rw [List.nil_append] at heq
  rw [heq, List.all_append, h', Bool.and_true]

end Stack

/-! ## The braces of namespaces -/

/-- What a namespace clause is made of. -/
theorem namespaceClause?_eq_some {c d : Cursor} (h : c.namespaceClause? = some (n, d)) :
    ∃ k, c.keyword? ["namespace"] = some k ∧ k.blanks? = some n.name ∧
      n.name.qualifiedName? = some n.nameStop ∧ n.delimiter = n.nameStop.skipBlanks ∧
      n.delimiter.char? (fun d => d == ';' || d == '{') = some d ∧ n.start = c ∧ n.stop = d := by
  simp only [namespaceClause?, Option.bind_eq_bind, Option.bind_eq_some_iff] at h
  obtain ⟨k, hk, m, hm, s, hs, e, he, heq⟩ := h
  cases heq
  exact ⟨k, hk, hm, hs, rfl, he, rfl, rfl⟩

/-- The delimiter of a namespace clause lies in the text. -/
theorem delimiter_of_mem (h : n ∈ (atStart cs).findAll namespaceClause?) :
    (atStart cs).Reaches n.delimiter ∧ n.delimiter.after ≠ [] := by
  obtain ⟨c, d, hn, hc, -⟩ := mem_findAll h
  obtain ⟨k, hk, hm, hs, hd, he, -, -⟩ := namespaceClause?_eq_some hn
  have hword : AreWords ["namespace"] := by decide
  refine ⟨?_, ?_⟩
  · rw [hd]
    exact hc.trans <| ((confined_words hword).forward hk).trans <|
      (confined_blanks.forward hm).trans <|
      (confined_qualifiedName.forward hs).trans <| reaches_skipBlanks _
  · obtain ⟨x, xs, ha, -⟩ := char?_eq_some he
    simp [ha]

/-- An offset in a text is smaller than its length. -/
theorem Cursor.Reaches.offset_lt {c : Cursor} (h : (atStart cs).Reaches c) (hne : c.after ≠ []) :
    c.offset < byteLength cs := by
  obtain ⟨u, hu, hb⟩ := h
  cases ha : c.after with
  | nil => exact absurd ha hne
  | cons x xs =>
    have hpos := x.utf8Size_pos
    have hcs : cs = u ++ c.after := hu
    rw [Cursor.offset, hb, hcs, ha]
    simp [atStart]
    omega

/-- The offsets of a code's braces that open namespaces. -/
def namespaceBraces (code : List Char) : List Nat :=
  (Document.mk [] code).namespaceBraces

theorem lt_of_mem_namespaceBraces {code : List Char} (h : k ∈ namespaceBraces code) :
    k < byteLength code := by
  simp only [namespaceBraces, Document.namespaceBraces, Document.namespaceClauses, List.mem_map,
    List.mem_filter] at h
  obtain ⟨n, ⟨hn, -⟩, rfl⟩ := h
  obtain ⟨hreach, hne⟩ := delimiter_of_mem hn
  exact hreach.offset_lt hne

/-- **The braces of namespaces are found piece by piece.** -/
theorem namespaceBraces_append (hp : Opens p.reverse) (x : List Char) :
    namespaceBraces (p ++ x) =
      namespaceBraces p ++ (namespaceBraces x).map (byteLength p + ·) := by
  unfold namespaceBraces Document.namespaceBraces Document.namespaceClauses
  dsimp only
  rw [findAll_append located_namespaceClause hp, List.filter_append, List.map_append,
    List.filter_map, List.filter_map, List.map_map, List.map_map, List.map_map]
  congr 1
  · have hbraced : ∀ n ∈ (atStart p).findAll namespaceClause?,
        (NamespaceClause.braced ∘ move [] x) n = n.braced := by
      intro n hn
      have hne := (delimiter_of_mem hn).2
      show ((n.delimiter.after ++ x).head? == some '{') = (n.delimiter.after.head? == some '{')
      rw [List.head?_append_of_ne_nil _ hne]
    rw [List.filter_congr hbraced]
    refine List.map_congr_left fun n _ => ?_
    show (n.delimiter.within [] x).offset = n.delimiter.offset
    rw [offset_within, byteLength_nil, Nat.zero_add]
  · have hbraced : ∀ n ∈ (atStart x).findAll namespaceClause?,
        (NamespaceClause.braced ∘ move p.reverse []) n = n.braced := by
      intro n _
      show ((n.delimiter.after ++ []).head? == some '{') = (n.delimiter.after.head? == some '{')
      rw [List.append_nil]
    rw [List.filter_congr hbraced]
    refine List.map_congr_left fun n _ => ?_
    show (n.delimiter.within p.reverse []).offset = byteLength p + n.delimiter.offset
    rw [offset_within, byteLength_reverse]

/-! ## Import level -/

/-- The braces that are open behind the first part `p` of a code. -/
def bracesAt (code p : List Char) : List Bool :=
  openBraces ((namespaceBraces code).contains ·) 0 [] p

/-- All braces that are open behind the first part `p` of a code are those of namespaces. -/
def importLevel (code p : List Char) : Bool :=
  (bracesAt code p).all id

/-- **The import regions in terms of the open braces**, for every byte of the code. -/
theorem importRegions_contains_byte (text a : List Char) (hk : k < c.utf8Size) (b : List Char) :
    (Document.mk text (a ++ c :: b)).importRegions.any (·.contains (byteLength a + k)) =
      (importLevel (a ++ c :: b) a &&
        (c != '{' || (namespaceBraces (a ++ c :: b)).contains (byteLength a))) := by
  have := @regionsFrom_contains ((namespaceBraces (a ++ c :: b)).contains ·) 0 [] (some 0) a
    (by simp) (by simp) c k hk b
  rw [Nat.zero_add] at this
  exact this

theorem importRegions_contains (text a : List Char) {c : Char} (hopen : c ≠ '{') (b : List Char) :
    (Document.mk text (a ++ c :: b)).importRegions.any (·.contains (byteLength a)) =
      importLevel (a ++ c :: b) a := by
  have := importRegions_contains_byte text a c.utf8Size_pos b
  rwa [Nat.add_zero, show (c != '{') =
    true by simpa using hopen, Bool.true_or, Bool.and_true] at this

/-- In the first piece the open braces are those of the piece. -/
theorem bracesAt_front (hp : Opens p.reverse) (x : List Char) (hp' : p' <+: p) :
    bracesAt (p ++ x) p' = bracesAt p p' := by
  refine openBraces_congr (fun k _ hk => ?_) []
  obtain ⟨t, rfl⟩ := hp'
  rw [namespaceBraces_append hp, Bool.eq_iff_iff, List.contains_iff_mem, List.contains_iff_mem,
    List.mem_append, List.mem_map]
  refine ⟨?_, .inl⟩
  rintro (h | ⟨j, -, rfl⟩)
  · exact h
  · rw [byteLength_append] at hk
    omega

/-- Behind the first piece the open braces are those of the second, on top of those of the first. -/
theorem bracesAt_back (hp : Opens p.reverse) (x x' : List Char) :
    bracesAt (p ++ x) (p ++ x') =
      openBraces ((namespaceBraces x).contains ·) 0 (bracesAt p p) x' := by
  unfold bracesAt
  rw [openBraces_append, Nat.zero_add]
  have hfront : openBraces ((namespaceBraces (p ++ x)).contains ·) 0 [] p = bracesAt p p :=
    bracesAt_front hp x (List.prefix_refl p)
  rw [hfront, show byteLength p = byteLength p + 0 from rfl, openBraces_shift]
  refine openBraces_congr (fun k _ _ => ?_) _
  rw [namespaceBraces_append hp, Bool.eq_iff_iff, List.contains_iff_mem, List.contains_iff_mem,
    List.mem_append, List.mem_map]
  constructor
  · rintro (h | ⟨j, hj, heq⟩)
    · have := lt_of_mem_namespaceBraces h
      omega
    · have : j = k := by omega
      exact this ▸ hj
  · exact fun h => .inr ⟨k, h, rfl⟩

/-- **Behind a place at import level, import level is that of the rest.** -/
theorem importLevel_back (hp : Opens p.reverse) (hlevel : importLevel p p = true) (x x' : List Char)
    : importLevel (p ++ x) (p ++ x') = importLevel x x' := by
  unfold importLevel
  rw [bracesAt_back hp]
  exact all_openBraces_below hlevel 0 x'

theorem importLevel_front (hp : Opens p.reverse) (x : List Char) (hp' : p' <+: p) :
    importLevel (p ++ x) p' = importLevel p p' := by
  unfold importLevel
  rw [bracesAt_front hp x hp']

end UseImports
