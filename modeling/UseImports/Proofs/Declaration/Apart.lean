import UseImports.Proofs.Code.Layout
import UseImports.Proofs.Declaration.Bodies

/-!
# Statements do not overlap

Every keyword `use` is tried on its own (`parse_use_statements`), also one inside the statement of
another. Such a keyword begins a statement only behind a brace of a group. Inside the braces it does
not stand at import level, since no brace of a namespace is that of a group which declares
something; and behind them only white space is left.

* `NamespaceAt`, `mem_namespaceBraces`: the text of a namespace declaration, and what stands in
  front of its brace.
* `findFrom_pairwise`, `mem_findAll_or`: a search finds what can be read, in the order of the text,
  without overlap.
* `UseSite.not_inside`: no import begins inside a statement that declares something.
* `useStarts_pairwise`: the keywords are found in the order of the text.
* `sites_apart`: **a statement that declares something ends before the next import begins.**
* `namespace_apart`: **imports and namespace declarations stand apart.**
* `StatementText.statementAt_of_ne_nil`: all imports of a statement are those of its first keyword.
* `divides_of_statement`: **a code is divided in front of an import statement.**
-/

namespace UseImports

open Cursor

variable {a b body code front g g' lead name P p R s T u w X x : List Char} {c e y : Char}
    {d k stop t : Cursor} {n : NamespaceClause} {inBraces sawName : Bool} {α : Type}
    {state : Bool × Bool}

/-- Of two cuts of a text, the second is the later one, or the first cuts off more. -/
theorem append_eq_append_cases {c d : List Char} (h : a ++ b = c ++ d) :
    (∃ t, c = a ++ t ∧ b = t ++ d) ∨ ∃ x t, a = c ++ x :: t ∧ d = x :: t ++ b := by
  rcases List.append_eq_append_iff.mp h with hleft | ⟨t, ha, hd⟩
  · exact .inl hleft
  · cases t with
    | nil => exact .inl ⟨[], by simpa using ha.symm, by simpa using hd.symm⟩
    | cons x t => exact .inr ⟨x, t, ha, hd⟩

/-! ## The last word of a text -/

/-- What stands in front of the last word of a text and the white space before it, backwards. -/
def beforeLastWord (cs : List Char) : List Char :=
  ((cs.reverse.dropWhile isBlank).dropWhile fun c => !isBlank c).dropWhile isBlank

theorem beforeLastWord_append {t : List Char} (hx : ∀ c ∈ x.getLast?, isBlank c = false)
    (hg : ∀ c ∈ g, isBlank c = true) (hgap : g ≠ [] ∨ x = []) (hne : t ≠ [])
    (ht : ∀ c ∈ t, isBlank c = false) (hg' : ∀ c ∈ g', isBlank c = true) :
    beforeLastWord (x ++ (g ++ (t ++ g'))) = x.reverse := by
  have hreverse : ∀ {y : List Char} {b : Bool}, (∀ c ∈ y, isBlank c = b) → ∀ c ∈ y.reverse,
      isBlank c = b :=
    fun h c hc => h c (List.mem_reverse.mp hc)
  have hword : (t.reverse ++ (g.reverse ++ x.reverse)).dropWhile isBlank =
      t.reverse ++ (g.reverse ++ x.reverse) := by
    refine dropWhile_of_head fun c hc => ?_
    rw [List.head?_append_of_ne_nil _ (by simpa using hne)] at hc
    exact hreverse ht c (List.mem_of_mem_head? hc)
  have hstop : (g.reverse ++ x.reverse).dropWhile (fun c => !isBlank c) =
      g.reverse ++ x.reverse := by
    cases hrev : g.reverse with
    | nil =>
      rcases hgap with hgap | rfl
      · exact absurd (List.reverse_eq_nil_iff.mp hrev) hgap
      · rfl
    | cons c y =>
      have hc : isBlank c = true := hreverse hg c (hrev ▸ List.mem_cons_self)
      rw [List.cons_append, List.dropWhile_cons_of_neg (by simp [hc])]
  have hlast : x.reverse.dropWhile isBlank = x.reverse :=
    dropWhile_of_head fun c hc => hx c (List.head?_reverse ▸ hc)
  unfold beforeLastWord
  rw [List.reverse_append, List.reverse_append, List.reverse_append, List.append_assoc,
    List.append_assoc, List.dropWhile_append_of_pos (hreverse hg'), hword,
    List.dropWhile_append_of_pos fun c hc => by rw [hreverse ht c hc]; rfl, hstop,
    List.dropWhile_append_of_pos (hreverse hg), hlast]

/-! ## Braces of namespaces -/

/-- The text of a namespace declaration: the keyword, the name and the semicolon or brace, with
white space around the name. -/
structure NamespaceAt (code P k g name g' : List Char) (e : Char) (R : List Char) : Prop where
  text : code = P ++ (k ++ (g ++ (name ++ g')) ++ e :: R)
  front : P.getLast?.any isWordChar = false
  keyword : k.map foldLetter = "namespace".toList
  gap_ne : g ≠ []
  gap : ∀ c ∈ g, isBlank c = true
  path : IsPath name
  behind : ∀ c ∈ g', isBlank c = true
  ends : e = ';' ∨ e = '{'

/-- A namespace declaration with its text. -/
structure NamespaceText (code : List Char) (n : NamespaceClause) (k g name g' : List Char)
    (e : Char) : Prop
    extends NamespaceAt code n.start.before.reverse k g name g' e n.stop.after where
  delimiter : n.delimiter.before.reverse = n.start.before.reverse ++ (k ++ (g ++ (name ++ g')))
  stop : n.stop.before = e :: n.delimiter.before

theorem exists_namespaceText (h : n ∈ (atStart code).findAll namespaceClause?) :
    ∃ k g name g' e, NamespaceText code n k g name g' e := by
  obtain ⟨c, d, hclause, hreach, -⟩ := mem_findAll h
  obtain ⟨kc, hk, hm, hs, hd, hchar, rfl, rfl⟩ := namespaceClause?_eq_some hclause
  obtain ⟨k, hafter, hfold, hbefore, hstart⟩ : ∃ k, n.start.after = k ++ kc.after ∧
      k.map foldLetter = "namespace".toList ∧
      kc.before = k.reverse ++ n.start.before ∧ n.start.atWordStart = true := by
    unfold keyword? at hk
    split at hk
    · rename_i hstart
      simp only [oneOf?, List.findSome?_cons, List.findSome?_nil] at hk
      split at hk
      · rename_i e he
        cases hk
        obtain ⟨k, hafter, hfold, hbefore⟩ := folded?_eq_some he
        exact ⟨k, hafter, hfold, hbefore, hstart⟩
      · cases hk
    · cases hk
  obtain ⟨g, hne, hg, -, hgbefore⟩ := blanks?_eq_some hm
  obtain ⟨u, hu, hubefore⟩ := confined_qualifiedName.forward hs
  have hcutU : n.name.upTo n.nameStop = u :=
    List.append_cancel_right ((confined_qualifiedName.forward hs).upTo_eq.symm.trans hu)
  have hpath : IsPath u := by
    obtain ⟨name, hname, hcut⟩ := qualifiedName?_eq_some hs
    rw [hcutU] at hcut
    rcases hcut with rfl | rfl
    · exact .inl hname
    · exact .inr ⟨name, rfl, hname⟩
  have hdelimiter : n.delimiter.before.reverse =
      n.start.before.reverse ++ (k ++ (g ++ (u ++ n.nameStop.after.takeWhile isBlank))) := by
    rw [hd, skipBlanks, skipWhile, hubefore, hgbefore, hbefore]
    simp
  obtain ⟨e, es, hes, he, hstop⟩ := char?_eq_some hchar
  have htext : code = n.delimiter.before.reverse ++ n.delimiter.after :=
    (delimiter_of_mem h).1.text_eq
  refine ⟨k, g, u, _, e, ⟨?_, ?_, hfold, hne, hg, hpath, fun x hx => List.mem_takeWhile_imp hx, ?_⟩,
    hdelimiter, ?_⟩
  · rw [htext, hdelimiter, hes, hstop, List.append_assoc]
  · rw [List.getLast?_reverse]
    simpa [atWordStart] using hstart
  · simpa using he
  · rw [hstop]

/-- The text in front of the brace of a namespace ends in the keyword `namespace` and a name. -/
theorem mem_namespaceBraces {Q : List Char} (hcode : code = Q ++ T)
    (h : byteLength Q ∈ namespaceBraces code) :
    ∃ S k g name g', Q = S ++ (k ++ (g ++ (name ++ g'))) ∧ k.map foldLetter =
      "namespace".toList ∧ g ≠ [] ∧
      (∀ c ∈ g, isBlank c = true) ∧ name ≠ [] ∧ (∀ c ∈ name, isWordChar c = true ∨ c = '\\') ∧
      ∀ c ∈ g', isBlank c = true := by
  obtain ⟨n, hn, hoffset⟩ := List.mem_map.mp h
  have hclause := (List.mem_filter.mp hn).1
  obtain ⟨k, g, name, g', e, hc⟩ := exists_namespaceText hclause
  have hQ : Q = n.delimiter.before.reverse := by
    have htext : code = n.delimiter.before.reverse ++ n.delimiter.after :=
      (delimiter_of_mem hclause).1.text_eq
    refine (append_eq_append_of_eq (hcode.symm.trans htext) ?_).1
    rw [← hoffset, offset, byteLength_reverse]
  exact ⟨_, k, g, name, g', hQ.trans hc.delimiter, hc.keyword, hc.gap_ne, hc.gap, hc.path.ne_nil,
    hc.path.mem, hc.behind⟩

/-- What stands in front of the braces of a group is one word. -/
theorem groupName?_trim (h : groupName? front = some name) :
    trim front ≠ [] ∧ ∀ c ∈ trim front, isBlank c = false := by
  have hname := groupName?_isName h
  have hstrip : name = dropEndWhile (· == '\\') ((trim front).dropWhile (· == '\\')) := by
    unfold groupName? at h
    dsimp only at h
    split at h
    · split at h
      · exact (Option.some.inj h).symm
      · cases h
    · cases h
  have hsub : ∀ c ∈ name, c ∈ trim front := by
    intro c hc
    rw [hstrip] at hc
    exact (List.dropWhile_sublist _).mem ((dropEndWhile_isPrefix _ _).mem hc)
  constructor
  · intro hempty
    obtain ⟨c, hc⟩ := List.exists_mem_of_ne_nil _ hname.ne_nil
    rw [hempty] at hsub
    exact absurd (hsub c hc) List.not_mem_nil
  · -- a character is a backslash at one of the ends, or it belongs to the name
    intro c hc
    by_cases hslash : c = '\\'
    · rw [hslash]
      exact isBlank_backslash
    · refine hname.not_isBlank c ?_
      have hmem : ∀ {cs : List Char}, c ∈ cs → c ∈ cs.dropWhile (· == '\\') := by
        intro cs hcs
        rw [← List.takeWhile_append_dropWhile (p := (· == '\\')) (l := cs)] at hcs
        refine (List.mem_append.mp hcs).resolve_left fun htake => hslash ?_
        simpa using List.mem_takeWhile_imp htake
      rw [hstrip, dropEndWhile, List.mem_reverse]
      exact hmem (List.mem_reverse.mpr (hmem hc))

/-! ## Keywords inside a statement -/

/-- A `use` at import level where a statement may begin, with the body of its statement. -/
structure UseSite (code P w body R : List Char) : Prop where
  text : code = P ++ (w ++ (body ++ ';' :: R))
  keyword : w.map foldLetter = "use".toList
  opens : Opens P.reverse
  level : importLevel code P = true
  scan : statementLength? false false (body ++ ';' :: R) = some body.length

/-- The characters of a word in any case are neither stops nor white space. -/
theorem plain_of_folded {w : String} (hw : ∀ x ∈ w.toList, x.isLower = true)
    (h : u.map foldLetter = w.toList) : ∀ c ∈ u, isStop c = false ∧ isBlank c = false := by
  intro c hc
  have hlower : (foldLetter c).isLower = true := hw _ (h ▸ List.mem_map_of_mem hc)
  constructor
  · by_contra hstop
    have hstop : isStop c = true := by simpa using hstop
    rw [foldLetter_of_isStop hstop] at hlower
    rcases isStop_cases hstop with rfl | rfl | rfl <;> (revert hlower; decide)
  · by_contra hblank
    have hnot : (foldLetter c).isLower = false :=
      of_isBlank (p := fun c => (foldLetter c).isLower = false) (by decide) (by simpa using hblank)
    rw [hnot] at hlower
    cases hlower

theorem isSpace_of_not_isBlank (h : isBlank c = false) : isSpace c = false := by
  by_contra hspace
  rw [isBlank_of_isSpace (by simpa using hspace)] at h
  cases h

theorem IsKindKeyword.last {kind : ImportKind} {k : List Char} (h : IsKindKeyword kind k) :
    ∃ x, k.getLast? = some x ∧ foldLetter x ≠ 'e' := by
  obtain ⟨w, hw, hfold⟩ := h
  have hlast := congrArg List.getLast? hfold
  rw [List.getLast?_map] at hlast
  cases kind with
  | cls => cases hw
  | function =>
    cases hw
    obtain ⟨x, hx, hn⟩ := Option.map_eq_some_iff.mp (hlast.trans (show _ = some 'n' by decide))
    exact ⟨x, hx, by rw [hn]; decide⟩
  | const =>
    cases hw
    obtain ⟨x, hx, hn⟩ := Option.map_eq_some_iff.mp (hlast.trans (show _ = some 't' by decide))
    exact ⟨x, hx, by rw [hn]; decide⟩

/-- A group that declares something stands behind no keyword but those of kinds. -/
theorem StatementLead.not_namespace {S k : List Char} (hlead : StatementLead lead)
    (hgroup : groupName? front = some name) (hfold : k.map foldLetter = "namespace".toList)
    (hgne : g ≠ []) (hg : ∀ c ∈ g, isBlank c = true) (hune : u ≠ [])
    (hu : ∀ c ∈ u, isBlank c = false) (hg' : ∀ c ∈ g', isBlank c = true) :
    lead ++ front ≠ S ++ (k ++ (g ++ (u ++ g'))) := by
  intro heq
  obtain ⟨ws, hws, hblank⟩ := trim_split front
  obtain ⟨htne, ht⟩ := groupName?_trim hgroup
  have hfront : ∀ c ∈ front.takeWhile isBlank, isBlank c = true := fun c hc =>
    List.mem_takeWhile_imp hc
  have hlast : ∃ x, k.getLast? = some x ∧ foldLetter x = 'e' := by
    have := congrArg List.getLast? hfold
    rw [List.getLast?_map] at this
    exact Option.map_eq_some_iff.mp this
  obtain ⟨x, hx, hxe⟩ := hlast
  -- in front of the last word stands the keyword of the namespace
  have hright : beforeLastWord (lead ++ front) = (S ++ k).reverse := by
    rw [heq, ← List.append_assoc]
    refine beforeLastWord_append ?_ hg (.inl hgne) hune hu hg'
    intro c hc
    rw [List.getLast?_append, hx] at hc
    obtain rfl : x = c := Option.some.inj hc
    exact (plain_of_folded (by decide) hfold x (List.mem_of_getLast? hx)).2
  rcases hlead with rfl | ⟨g₀, kind, kk, g₁, rfl, hg₀, hkk, hg₁ne, hg₁⟩
  · have hleft : beforeLastWord ([] ++ front) = [].reverse := by
      rw [hws]
      exact beforeLastWord_append (by simp) hfront (.inr rfl) htne ht hblank
    rw [hright] at hleft
    have hnil := List.append_eq_nil_iff.mp (List.reverse_injective hleft)
    rw [hnil.2] at hx
    cases hx
  · obtain ⟨y, hy, hye⟩ := hkk.last
    have hleft : beforeLastWord (g₀ ++ (kk ++ g₁) ++ front) = (g₀ ++ kk).reverse := by
      have hsplit : g₀ ++ (kk ++ g₁) ++ front =
          g₀ ++ kk ++ (g₁ ++ front.takeWhile isBlank ++ (trim front ++ ws)) := by
        conv_lhs => rw [hws]
        simp only [List.append_assoc]
      rw [hsplit]
      refine beforeLastWord_append ?_ ?_
        (.inl (List.append_ne_nil_of_left_ne_nil hg₁ne _)) htne ht hblank
      · intro c hc
        rw [List.getLast?_append, hy] at hc
        obtain rfl : y = c := Option.some.inj hc
        exact hkk.not_isBlank y (List.mem_of_getLast? hy)
      · intro c hc
        exact (List.mem_append.mp hc).elim (hg₁ c) (hfront c)
    rw [hright] at hleft
    have hsame := congrArg List.getLast? (List.reverse_injective hleft)
    rw [List.getLast?_append, List.getLast?_append, hx, hy] at hsame
    obtain rfl : x = y := Option.some.inj hsame
    exact hye hxe

/-- **The brace of a group that declares something is not that of a namespace.** -/
theorem not_mem_namespaceBraces (htext : code = P ++ (w ++ (lead ++ front)) ++ T)
    (hw : w.map foldLetter = "use".toList) (hopens : Opens P.reverse) (hlead : StatementLead lead)
    (hgroup : groupName? front = some name) :
    byteLength (P ++ (w ++ (lead ++ front))) ∉ namespaceBraces code := by
  intro hmem
  obtain ⟨S, k, g, u, g', hQ, hfold, hgne, hg, hune, hu, hg'⟩ := mem_namespaceBraces htext hmem
  have hk := plain_of_folded (by decide) hfold
  obtain ⟨x, k', rfl⟩ : ∃ x k', k = x :: k' := by
    cases k with
    | nil => cases hfold
    | cons x k' => exact ⟨x, k', rfl⟩
  have hxn : foldLetter x = 'n' := (List.cons.inj hfold).1
  -- nothing in the clause of a namespace ends a statement
  have hstop : ∀ c ∈ (x :: k') ++ (g ++ (u ++ g')), isStop c = false := by
    have hhalt : ∀ {p : Char → Bool}, Halts p → ∀ {c}, p c = true → isStop c = false := by
      intro p hp c hc
      by_contra hstop
      rw [hp c (by simpa using hstop)] at hc
      cases hc
    intro c hc
    rcases List.mem_append.mp hc with hc | hc
    · exact (hk c hc).1
    rcases List.mem_append.mp hc with hc | hc
    · exact hhalt halts_isBlank (hg c hc)
    rcases List.mem_append.mp hc with hc | hc
    · rcases hu c hc with hc | rfl
      · exact hhalt halts_isWordChar hc
      · decide
    · exact hhalt halts_isBlank (hg' c hc)
  rcases append_eq_append_cases hQ with ⟨S', -, hrest⟩ | ⟨y, c₁, rfl, hrest⟩
  · -- the clause would begin behind `P`: in the keyword, or behind it
    rcases append_eq_append_cases hrest with ⟨S'', -, hbehind⟩ | ⟨y, w', rfl, hinside⟩
    · refine hlead.not_namespace hgroup hfold hgne hg hune (fun c hc => ?_) hg' hbehind
      rcases hu c hc with hc | rfl
      · exact isBlank_of_isWordChar hc
      · exact isBlank_backslash
    · obtain rfl : x = y := (List.cons.inj hinside).1
      have hmem : foldLetter x ∈ "use".toList := hw ▸ List.mem_map_of_mem (by simp)
      rw [hxn] at hmem
      revert hmem
      decide
  · -- the clause would begin in front of a place where a statement begins
    obtain rfl : x = y := (List.cons.inj hrest).1
    obtain ⟨z, c, ws, hz, hc, -⟩ := hopens.exists_stop ⟨x, List.mem_cons_self,
      isSpace_of_not_isBlank (hk x List.mem_cons_self).2⟩
    have hnot := hstop c (by rw [hrest, hz]; simp)
    rw [hc] at hnot
    cases hnot

/-- Where no brace of one kind comes, none of the other kind does, and the braces stay as they are.
-/
theorem scanStep_braces {c : Char} {state : Bool × Bool}
    (h : scanStep inBraces sawName c = some state) (hc : (if inBraces then '}' else '{') ≠ c) :
    (if inBraces then '{' else '}') ≠ c ∧ state.1 = inBraces := by
  unfold scanStep at h
  cases inBraces <;> grind

/-- Outside braces a statement has no closing brace, and inside them no opening one. -/
theorem statementLength?_front {n : Nat} (h : statementLength? inBraces sawName (a ++ b) = some n)
    (hn : a.length ≤ n) (hno : (if inBraces then '}' else '{') ∉ a) :
    (if inBraces then '{' else '}') ∉ a ∧
      ∃ sawName', statementLength? inBraces sawName' b = some (n - a.length) := by
  induction a generalizing sawName n with
  | nil => exact ⟨List.not_mem_nil, sawName, h⟩
  | cons c a ih =>
    obtain ⟨hc, hno⟩ := not_or.mp (mt List.mem_cons.mpr hno)
    rw [List.length_cons] at hn
    rcases statementLength?_cases h with ⟨-, -, rfl⟩ | ⟨state, m, hstep, hm, rfl⟩
    · omega
    · obtain ⟨hne, hstate⟩ := scanStep_braces hstep hc
      rw [hstate] at hm
      obtain ⟨hrest, saw', hsaw⟩ := ih hm (by omega) hno
      refine ⟨fun hmem => ?_, saw', by rw [hsaw, List.length_cons, Nat.add_sub_add_right]⟩
      exact (List.mem_cons.mp hmem).elim hne hrest

theorem StatementLead.not_isStop (h : StatementLead lead) : ∀ c ∈ lead, isStop c = false := by
  have hblank : ∀ {c}, isBlank c = true → isStop c = false := by
    intro c hc
    by_contra hstop
    rw [halts_isBlank c (by simpa using hstop)] at hc
    cases hc
  intro c hc
  rcases h with rfl | ⟨g, kind, k, g', rfl, hg, ⟨w, hw, hfold⟩, -, hg'⟩
  · cases hc
  · rcases List.mem_append.mp hc with hc | hc
    · exact hblank (hg c hc)
    rcases List.mem_append.mp hc with hc | hc
    · cases kind with
      | cls => cases hw
      | function => cases hw; exact (plain_of_folded (by decide) hfold c hc).1
      | const => cases hw; exact (plain_of_folded (by decide) hfold c hc).1
    · exact hblank (hg' c hc)

/-- The stops of a statement that declares something are the braces of its group. -/
theorem UseSite.stop_cases {z : List Char} (h : UseSite code P w body R) (hshape : BodyShape body)
    (hbody : body = x ++ c :: z) (hc : isStop c = true) :
    (c = '{' ∧ ∃ lead front name, x = lead ++ front ∧ StatementLead lead ∧
      groupName? front = some name ∧
        ∀ d ∈ x, d ≠ '{' ∧ d ≠ '}') ∨
      (c = '}' ∧ ∀ d ∈ z, isBlank d = true) := by
  have hmem : c ∈ body := hbody ▸ by simp
  have hsemi : c ≠ ';' := by
    rintro rfl
    obtain ⟨b, s, state, hscan⟩ := scanStep_of_mem_take h.scan (by rw [List.take_left]; exact hmem)
    simp [scanStep] at hscan
  have hnotBlank : ∀ {d}, isBlank d = true → d ≠ '{' ∧ d ≠ '}' := by
    intro d hd
    constructor <;> (rintro rfl; revert hd; decide)
  cases hshape with
  | @sequence lead front hlead hsplit hopen =>
    have hopen' : '{' ∉ body := by
      rw [hsplit]
      intro hmem
      rcases List.mem_append.mp hmem with hmem | hmem
      · exact absurd (hlead.not_isStop _ hmem) (by decide)
      · exact hopen hmem
    have hclose := (statementLength?_front h.scan (Nat.le_refl _) hopen').1
    rcases isStop_cases hc with rfl | rfl | rfl
    · exact absurd rfl hsemi
    · exact absurd hmem hopen'
    · exact absurd hmem hclose
  | @group lead front inner tail name hlead hsplit hopen hclose htail hgroup =>
    have hfront : '{' ∉ lead ++ front := by
      intro hmem
      rcases List.mem_append.mp hmem with hmem | hmem
      · exact absurd (hlead.not_isStop _ hmem) (by decide)
      · exact hopen hmem
    -- the scan goes through the three pieces of the body
    have hscan : statementLength? false false
        ((lead ++ front) ++ '{' :: (inner ++ '}' :: (tail ++ ';' :: R))) = some body.length := by
      have := h.scan
      rw [hsplit] at this ⊢
      simpa only [List.append_assoc, List.cons_append] using this
    have hlen : body.length = (lead ++ front).length + (inner.length + (tail.length + 1) + 1) := by
      rw [hsplit]
      simp only [List.length_append, List.length_cons]
      omega
    obtain ⟨hfront', saw, hscan'⟩ := statementLength?_front hscan (by omega) hfront
    rw [statementLength?_cons] at hscan'
    obtain ⟨m, hm, hlast⟩ := Option.map_eq_some_iff.mp hscan'
    have hinner := (statementLength?_front hm (by omega) hclose).1
    rcases isStop_cases hc with rfl | rfl | rfl
    · exact absurd rfl hsemi
    · left
      have hbehind : '{' ∉ inner ++ '}' :: tail := by
        intro hmem
        rcases List.mem_append.mp hmem with hmem | hmem
        · exact hinner hmem
        rcases List.mem_cons.mp hmem with heq | hmem
        · cases heq
        · exact (hnotBlank (htail _ hmem)).1 rfl
      have heq : (lead ++ front) ++ '{' :: (inner ++ '}' :: tail) = x ++ '{' :: z := by
        rw [← hbody, hsplit, List.append_assoc]
      obtain ⟨rfl, -, -⟩ := (List.append_cons_inj_of_notMem hfront hbehind).mp heq
      exact ⟨rfl, lead, front, name, rfl, hlead, hgroup, fun d hd =>
        ⟨fun h => hfront (h ▸ hd), fun h => hfront' (h ▸ hd)⟩⟩
    · right
      have hbefore : '}' ∉ (lead ++ front) ++ '{' :: inner := by
        intro hmem
        rcases List.mem_append.mp hmem with hmem | hmem
        · exact hfront' hmem
        rcases List.mem_cons.mp hmem with heq | hmem
        · cases heq
        · exact hclose hmem
      have heq : ((lead ++ front) ++ '{' :: inner) ++ '}' :: tail = x ++ '}' :: z := by
        rw [← hbody, hsplit]
        simp only [List.append_assoc, List.cons_append]
      obtain ⟨-, -, rfl⟩ :=
        (List.append_cons_inj_of_notMem hbefore fun hmem => (hnotBlank (htail _ hmem)).2 rfl).mp heq
      exact ⟨rfl, htail⟩

/-- Where a statement may begin behind the keyword of an import, a stop of its body comes before. -/
theorem UseSite.exists_stop (h : UseSite code P w body R) (hopens : Opens (P ++ (w ++ X)).reverse) :
    ∃ x c ws, X = x ++ c :: ws ∧ isStop c = true ∧ ∀ d ∈ ws, isSpace d = true := by
  have hw := plain_of_folded (by decide) h.keyword
  obtain ⟨z, c, ws, hz, hc, hws⟩ := hopens.exists_stop (by
    obtain ⟨e, he⟩ : ∃ e, e ∈ w := by
      cases hnil : w with
      | nil => rw [hnil] at h; cases h.keyword
      | cons e w => exact ⟨e, List.mem_cons_self⟩
    exact ⟨e, List.mem_append_left X he, isSpace_of_not_isBlank (hw e he).2⟩)
  rcases append_eq_append_cases hz with ⟨x, -, hX⟩ | ⟨d, t, rfl, hd⟩
  · exact ⟨x, c, ws, hX, hc, hws⟩
  · obtain rfl : c = d := (List.cons.inj hd).1
    rw [(hw c (by simp)).1] at hc
    cases hc

/-- **No import begins inside a statement that declares something.** -/
theorem UseSite.not_inside {Y : List Char} (h : UseSite code P w body R) (hshape : BodyShape body)
    (hbody : body = X ++ y :: Y) (hy : isBlank y = false) (hopens : Opens (P ++ (w ++ X)).reverse) :
    importLevel code (P ++ (w ++ X)) = false := by
  have hw := plain_of_folded (by decide) h.keyword
  obtain ⟨x, c, ws, hx, hc, hws⟩ := h.exists_stop hopens
  have hbody' : body = x ++ c :: (ws ++ y :: Y) := by
    rw [hbody, hx]
    simp
  rcases h.stop_cases hshape hbody' hc with
      ⟨rfl, lead, front, name, rfl, hlead, hgroup, hplain⟩ | ⟨rfl, htail⟩
  · -- inside the braces of a group
    have hplain : ∀ d ∈ w ++ (lead ++ front), d ≠ '{' ∧ d ≠ '}' := by
      intro d hd
      rcases List.mem_append.mp hd with hd | hd
      · have := (hw d hd).1
        constructor <;> (rintro rfl; revert this; decide)
      · exact hplain d hd
    have hspace : ∀ d ∈ ws, d ≠ '{' ∧ d ≠ '}' := by
      intro d hd
      have := hws d hd
      constructor <;> (rintro rfl; revert this; decide)
    have hnot : (namespaceBraces code).contains
        (0 + byteLength P + byteLength (w ++ (lead ++ front))) = false := by
      have htext : code = P ++ (w ++ (lead ++ front)) ++ ('{' :: (ws ++ y :: Y) ++ ';' :: R) := by
        rw [h.text, hbody']
        simp only [List.append_assoc, List.cons_append]
      have := not_mem_namespaceBraces htext h.keyword h.opens hlead hgroup
      rw [byteLength_append] at this
      simpa using this
    have hsplit : P ++ (w ++ X) = P ++ (w ++ (lead ++ front) ++ '{' :: ws) := by
      rw [hx]
      simp only [List.append_assoc]
    rw [hsplit, importLevel, bracesAt, openBraces_append, openBraces_append,
      openBraces_of_plain hplain, openBraces_cons, openBraces_of_plain hspace, hnot]
    rfl
  · -- behind the braces of a group
    rw [htail y (by simp)] at hy
    cases hy

/-! ## The order of the statements -/

/-- What a search for places finds comes in the order of the text, without overlap. -/
theorem findFrom_pairwise {α : Type} {place : α → Cursor × Cursor}
    {r : Cursor → Option (α × Cursor)}
    (hr : ∀ {c a d}, r c = some (a, d) → place a = (c, d) ∧ c.Reaches d) (n : Nat)
    (before after : List Char) :
    (∀ x ∈ findFrom r n before after, before.length + n ≤ (place x).1.before.length) ∧
      (findFrom r n before after).Pairwise fun x y =>
      (place x).2.before.length ≤ (place y).1.before.length := by
  induction after generalizing n before with
  | nil =>
    rw [findFrom_nil]
    exact ⟨by simp, .nil⟩
  | cons c after ih =>
    cases n with
    | succ n =>
      obtain ⟨hstart, hrest⟩ := ih n (c :: before)
      refine ⟨fun x hx => ?_, hrest⟩
      have := hstart x hx
      rw [List.length_cons] at this
      omega
    | zero =>
      rw [findFrom_zero_cons]
      cases hread : r ⟨before, c :: after⟩ with
      | none =>
        obtain ⟨hstart, hrest⟩ := ih 0 (c :: before)
        refine ⟨fun x hx => ?_, hrest⟩
        have := hstart x hx
        rw [List.length_cons] at this
        omega
      | some found =>
        obtain ⟨hfound, u, hu, hbefore⟩ := hr (a := found.1) (d := found.2) hread
        obtain ⟨hstart, hrest⟩ := ih (after.length - found.2.after.length) (c :: before)
        have hlen := congrArg List.length hu
        rw [List.length_cons, List.length_append] at hlen
        dsimp only
        refine ⟨fun x hx => ?_, List.pairwise_cons.mpr ⟨fun x hx => ?_, hrest⟩⟩
        · rcases List.mem_cons.mp hx with rfl | hx
          · rw [hfound]
            exact Nat.le_refl _
          · have := hstart x hx
            rw [List.length_cons] at this
            omega
        · have := hstart x hx
          rw [List.length_cons] at this
          rw [hfound, hbefore, List.length_append, List.length_reverse]
          dsimp only
          omega

/-- **What a reader finds at a place, a search finds**, unless it is inside of something else that
the search finds. -/
theorem mem_findFrom_or {p : α → Cursor × Cursor} {r : Cursor → Option (α × Cursor)}
    (hr : ∀ {c a d}, r c = some (a, d) → p a = (c, d) ∧ c.Reaches d) {c : Cursor} {a : α}
    (hread : r c = some (a, d)) (hne : c.after ≠ []) {n : Nat} {before : List Char}
    (hbefore : c.before = u.reverse ++ before) :
    u.length < n ∨ a ∈ findFrom r n before (u ++ c.after) ∨
      ∃ x ∈ findFrom r n before (u ++ c.after),
        (p x).1.before.length < c.before.length ∧ c.before.length < (p x).2.before.length := by
  induction u generalizing n before with
  | nil =>
    cases n with
    | succ n => exact .inl (Nat.succ_pos n)
    | zero =>
      obtain ⟨y, after, hafter⟩ := List.exists_cons_of_ne_nil hne
      have hc : c = ⟨before, y :: after⟩ := by
        rw [← hafter]
        exact congrArg (Cursor.mk · c.after) hbefore
      rw [List.nil_append, hafter, findFrom_zero_cons, ← hc, hread]
      exact .inr (.inl List.mem_cons_self)
  | cons y u ih =>
    have hbefore' : c.before = u.reverse ++ (y :: before) := by rw [hbefore]; simp
    have hlength := congrArg List.length hbefore
    simp only [List.length_append, List.length_reverse, List.length_cons] at hlength
    rw [List.cons_append]
    cases n with
    | succ n => exact (ih (n := n) hbefore').imp Nat.succ_lt_succ id
    | zero =>
      rw [findFrom_zero_cons]
      cases hfound : r ⟨before, y :: (u ++ c.after)⟩ with
      | none => exact .inr ((ih (n := 0) hbefore').resolve_left (Nat.not_lt_zero _))
      | some found =>
        obtain ⟨hfound', v, hv, hstop⟩ := hr (a := found.1) (d := found.2) hfound
        refine .inr ?_
        dsimp only
        rcases ih (n := (u ++ c.after).length - found.2.after.length) hbefore' with hlt | hmem |
            ⟨x, hx, hinside⟩
        · -- the place is inside of what is found here
          refine .inr ⟨found.1, List.mem_cons_self, ?_⟩
          have hlen := congrArg List.length hv
          have hlen' := congrArg List.length hstop
          simp only [List.length_cons, List.length_append, List.length_reverse] at hlen hlen' hlt
          rw [hfound']
          dsimp only
          omega
        · exact .inl (List.mem_cons_of_mem _ hmem)
        · exact .inr ⟨x, List.mem_cons_of_mem _ hx, hinside⟩

theorem mem_findAll_or {p : α → Cursor × Cursor} {r : Cursor → Option (α × Cursor)}
    (hr : ∀ {c a d}, r c = some (a, d) → p a = (c, d) ∧ c.Reaches d) {c : Cursor} {a : α}
    (hread : r c = some (a, d)) (hne : c.after ≠ []) (hcode : code = c.text) :
    a ∈ (atStart code).findAll r ∨ ∃ x ∈ (atStart code).findAll r,
      (p x).1.before.length < c.before.length ∧ c.before.length < (p x).2.before.length := by
  have hbefore : c.before = c.before.reverse.reverse ++ [] := by simp
  have hor := mem_findFrom_or hr hread hne (n := 0) hbefore
  rw [hcode]
  exact hor.resolve_left (Nat.not_lt_zero _)

/-- **The keywords are found in the order of the text.** -/
theorem useStarts_pairwise (code : List Char) :
    (useStarts code).Pairwise fun x y => x.2.before.length ≤ y.1.before.length := by
  refine (@findFrom_pairwise _ id _ (fun {c a d} h => ?_) 0 [] code).2
  obtain ⟨hk, hs, -, -, w, -, -, hafter, hbefore⟩ := useKeyword?_eq_some (k := a.1) (s := a.2) h
  exact ⟨Prod.ext hk hs, w, hafter, hbefore⟩

/-- The site of an import, with the text around it. -/
theorem useSite_of_mem {s : Cursor} (h : (k, s) ∈ useStarts code) (hsite : isSite code k = true)
    (hbody : statementBody? s = some body) :
    ∃ w R, UseSite code k.before.reverse w body R ∧ s.before.reverse = k.before.reverse ++ w ∧
      s.after = body ++ ';' :: R := by
  obtain ⟨hk, hreach⟩ := mem_useStarts h
  obtain ⟨-, -, -, -, w, -, hw, hafter, hbefore⟩ := useKeyword?_eq_some hk
  obtain ⟨R, hR⟩ := eq_of_statementBody? hbody
  rw [isSite, Bool.and_eq_true] at hsite
  refine ⟨w, R, ⟨?_, hw, ?_, hsite.1, ?_⟩, ?_, hR⟩
  · rw [← hR, ← hafter]
    exact hreach.text_eq
  · rw [List.reverse_reverse]
    exact hsite.2
  · rw [← hR]
    obtain ⟨n, hn, hlen⟩ := Option.map_eq_some_iff.mp hbody
    have hle := statementLength?_le hn
    rw [hn, ← hlen, List.length_take, Nat.min_eq_left (Nat.le_of_lt hle)]
  · rw [hbefore, List.reverse_append, List.reverse_reverse]

/-- **A statement that declares something ends before the next import begins.** -/
theorem sites_apart {s k' s' : Cursor} (h : (k, s) ∈ useStarts code)
    (h' : (k', s') ∈ useStarts code) (hle : s.before.length ≤ k'.before.length)
    (hsite : isSite code k = true) (hsite' : isSite code k' = true)
    (hbody : statementBody? s = some body) (hshape : BodyShape body) :
    s.offset + byteLength body + 1 ≤ k'.offset := by
  obtain ⟨w, R, huse, hs, -⟩ := useSite_of_mem h hsite hbody
  obtain ⟨hk', hreach'⟩ := mem_useStarts h'
  obtain ⟨-, -, -, -, w', -, hw', hafter', -⟩ := useKeyword?_eq_some hk'
  have hcode : code = k.before.reverse ++ w ++ (body ++ ';' :: R) := by
    rw [huse.text, List.append_assoc]
  have hcode' : code = k'.before.reverse ++ k'.after := hreach'.text_eq
  obtain ⟨X, hX⟩ : k.before.reverse ++ w <+: k'.before.reverse := by
    refine List.prefix_of_prefix_length_le ⟨_, hcode.symm⟩ ⟨_, hcode'.symm⟩ ?_
    rw [← hs, List.length_reverse, List.length_reverse]
    exact hle
  have htext : X ++ k'.after = body ++ ';' :: R := by
    rw [← hX, List.append_assoc _ X] at hcode'
    exact List.append_cancel_left (hcode'.symm.trans hcode)
  have hoffset : k'.offset = s.offset + byteLength X := by
    rw [offset, offset, ← byteLength_reverse, ← hX, ← hs, byteLength_append, byteLength_reverse]
  by_contra hlt
  obtain ⟨t, ht, hafter⟩ :=
    append_eq_append_of_le htext (show byteLength X ≤ byteLength body by omega)
  -- the second keyword would stand in the body of the first
  obtain ⟨y, v, rfl⟩ : ∃ y v, w' = y :: v := by
    cases w' with
    | nil => cases hw'
    | cons y v => exact ⟨y, v, rfl⟩
  rw [hafter'] at hafter
  cases t with
  | nil =>
    obtain rfl : y = ';' := (List.cons.inj hafter).1
    exact absurd (List.cons.inj hw').1 (by decide)
  | cons z t =>
    obtain rfl : y = z := (List.cons.inj hafter).1
    rw [isSite, Bool.and_eq_true, ← hX, List.append_assoc] at hsite'
    have hopens : Opens (k.before.reverse ++ (w ++ X)).reverse := by
      rw [← List.append_assoc, hX, List.reverse_reverse]
      exact hsite'.2
    have hy := plain_of_folded (w := "use") (by decide) hw' y List.mem_cons_self
    rw [huse.not_inside hshape ht hy.2 hopens] at hsite'
    cases hsite'.1

/-! ## Namespaces among the imports -/

/-- No character of a namespace declaration stops a statement, up to the semicolon or brace. -/
theorem NamespaceAt.not_isStop {k : List Char} (h : NamespaceAt code P k g name g' e R) :
    ∀ c ∈ k ++ (g ++ (name ++ g')), isStop c = false := by
  intro c hc
  by_contra hstop
  have hstop : isStop c = true := by simpa using hstop
  have hblank := halts_isBlank c hstop
  rcases List.mem_append.mp hc with hc | hc
  · rw [(plain_of_folded (by decide) h.keyword c hc).1] at hstop
    cases hstop
  rcases List.mem_append.mp hc with hc | hc
  · rw [h.gap c hc] at hblank
    cases hblank
  rcases List.mem_append.mp hc with hc | hc
  · rcases h.path.mem c hc with hword | rfl
    · rw [halts_isWordChar c hstop] at hword
      cases hword
    · cases hstop
  · rw [h.behind c hc] at hblank
    cases hblank

theorem NamespaceText.exists_cons {k : List Char} (h : NamespaceText code n k g name g' e) :
    ∃ y v, k ++ (g ++ (name ++ g')) = y :: v ∧ foldLetter y = 'n' ∧
      isBlank y = false := by
  have hkeyword := h.keyword
  cases k with
  | nil => cases hkeyword
  | cons y v =>
    exact ⟨y, _, rfl, (List.cons.inj hkeyword).1,
      (plain_of_folded (by decide) h.keyword y List.mem_cons_self).2⟩

/-- A group that is opened in the body of a statement is closed there. -/
theorem BodyShape.close_mem (h : BodyShape body) (hopen : '{' ∈ body) : '}' ∈ body := by
  cases h with
  | @sequence lead front hlead hbody hfront =>
    rw [hbody] at hopen
    rcases List.mem_append.mp hopen with hmem | hmem
    · exact absurd (hlead.not_isStop _ hmem) (by decide)
    · exact absurd hmem hfront
  | group hlead hbody =>
    rw [hbody]
    simp

/-- **No namespace declaration stands in a statement that declares something.** It could only begin
in the braces of the group, and has a semicolon or a brace of its own, which the group has not. -/
theorem UseSite.length_lt_of_namespace {v : List Char} (h : UseSite code P w body R)
    (hshape : BodyShape body) (hopens : Opens (P ++ (w ++ X)).reverse)
    (htext : body ++ ';' :: R = X ++ (y :: v ++ e :: T)) (hy : isBlank y = false)
    (hv : ∀ c ∈ y :: v, isStop c = false) (he : e = ';' ∨ e = '{') : body.length < X.length := by
  by_contra hle
  obtain ⟨t, hbody⟩ : X <+: body :=
    List.prefix_of_prefix_length_le ⟨_, htext.symm⟩ ⟨_, rfl⟩ (Nat.not_lt.mp hle)
  have hrest : t ++ ';' :: R = y :: v ++ e :: T := by
    rw [← hbody, List.append_assoc] at htext
    exact List.append_cancel_left htext
  obtain ⟨x, c, ws, hX, hc, hws⟩ := h.exists_stop hopens
  obtain ⟨t', rfl⟩ : ∃ t', t = y :: t' := by
    cases t with
    | nil =>
      obtain rfl : ';' = y := (List.cons.inj hrest).1
      exact absurd (hv ';' List.mem_cons_self) (by decide)
    | cons z t' => exact ⟨t', by rw [(List.cons.inj hrest).1]⟩
  have hsplit : body = x ++ c :: (ws ++ y :: t') := by
    rw [← hbody, hX]
    simp
  have hstop : isStop e = true := by rcases he with rfl | rfl <;> rfl
  rcases h.stop_cases hshape hsplit hc with ⟨rfl, -, -, -, -, -, -, hplain⟩ | ⟨rfl, htail⟩
  · -- the closing brace comes behind the declaration, so the end of the declaration is a stop of
    -- the body
    have hclose : '}' ∈ y :: t' := by
      have hmem := hshape.close_mem (by rw [hsplit]; simp)
      rw [hsplit] at hmem
      rcases List.mem_append.mp hmem with hmem | hmem
      · exact absurd rfl (hplain _ hmem).2
      rcases List.mem_cons.mp hmem with heq | hmem
      · cases heq
      rcases List.mem_append.mp hmem with hmem | hmem
      · exact absurd (hws _ hmem) (by decide)
      · exact hmem
    rcases append_eq_append_cases hrest with ⟨s, hs, -⟩ | ⟨z, s, hs, hz⟩
    · exact absurd (hv '}' (by rw [hs]; exact List.mem_append_left _ hclose)) (by decide)
    · obtain rfl : e = z := (List.cons.inj hz).1
      have hbehind : body = (x ++ '{' :: (ws ++ y :: v)) ++ e :: s := by
        rw [hsplit, hs]
        simp
      rcases h.stop_cases hshape hbehind hstop with ⟨-, -, -, -, -, -, -, hnone⟩ | ⟨rfl, -⟩
      · exact absurd rfl (hnone '{' (by simp)).1
      · rcases he with he | he <;> cases he
  · rw [htail y (by simp)] at hy
    cases hy

/-- **Imports and namespace declarations stand apart.** -/
theorem namespace_apart (hn : n ∈ (atStart code).findAll namespaceClause?)
    (hstarts : n.start.startsStatement = true) {d : Declaration} (hd : d ∈ imports code) :
    d.statement.stop ≤ n.start.offset ∨ n.stop.offset ≤ d.statement.start := by
  obtain ⟨k, s, body, hmem, hsite, hbody, hread⟩ := site_of_mem_imports hd
  have hshape : BodyShape body := bodyShape_of_readBody (List.ne_nil_of_mem hread)
  obtain ⟨w, R, huse, hs, -⟩ := useSite_of_mem hmem hsite hbody
  obtain ⟨u, g, name, g', e, hclause⟩ := exists_namespaceText hn
  have hplain := hclause.not_isStop
  obtain ⟨y, v, hcons, hy, hblank⟩ := hclause.exists_cons
  have htext := hclause.text
  rw [hcons] at hplain htext
  rw [statement_of_mem_readBody hread]
  rcases append_eq_append_cases (huse.text.symm.trans htext) with ⟨t, hN, hrest⟩ | ⟨c, t, hP, hrest⟩
  · -- the declaration begins behind the keyword of the import, and so behind its statement
    left
    have hopens : Opens (k.before.reverse ++ t).reverse := by
      rw [← hN, List.reverse_reverse]
      exact hstarts
    rcases append_eq_append_cases hrest with ⟨X, rfl, hbehind⟩ | ⟨c, t', hw, hc⟩
    · have hlength := huse.length_lt_of_namespace hshape hopens hbehind hblank hplain hclause.ends
      obtain ⟨Y, hY⟩ : body ++ [';'] <+: X :=
        List.prefix_of_prefix_length_le ⟨R, by simp⟩ ⟨_, hbehind.symm⟩ (by simpa using hlength)
      have hoffset := congrArg byteLength hN
      rw [← hY, ← List.append_assoc, ← hs] at hoffset
      simp only [byteLength_append, byteLength_reverse] at hoffset
      have hsemicolon : byteLength [';'] = 1 := by decide
      dsimp only [Cursor.offset]
      omega
    · obtain rfl : y = c := (List.cons.inj hc).1
      have hmem : foldLetter y ∈ w.map foldLetter := List.mem_map_of_mem (by rw [hw]; simp)
      rw [huse.keyword, hy] at hmem
      exact absurd hmem (by decide)
  · -- the import begins behind the keyword of the declaration, and so behind its stop
    right
    have hnot : ¬ (c :: t <+: y :: v) := by
      rintro ⟨r, hr⟩
      obtain rfl : c = y := (List.cons.inj hr).1
      have hopens : Opens (n.start.before.reverse ++ c :: t).reverse := by
        rw [← hP]
        exact huse.opens
      obtain ⟨x, z, ws, hx, hz, -⟩ :=
        hopens.exists_stop ⟨c, List.mem_cons_self, isSpace_of_not_isBlank hblank⟩
      rw [hplain z (by rw [← hr, hx]; simp)] at hz
      cases hz
    rcases append_eq_append_cases hrest with ⟨r, hr, hbehind⟩ | ⟨z, r, hr, -⟩
    · cases r with
      | nil => exact absurd ⟨[], by rw [hr]; simp⟩ hnot
      | cons z r =>
        obtain rfl : e = z := (List.cons.inj hbehind).1
        have hoffset := congrArg byteLength hP
        have hdelimiter := congrArg byteLength hclause.delimiter
        rw [hr] at hoffset
        rw [hcons] at hdelimiter
        simp only [byteLength_append, byteLength_reverse, byteLength_cons] at hoffset hdelimiter
        dsimp only [Cursor.offset]
        rw [hclause.stop, byteLength_cons]
        omega
    · exact absurd ⟨z :: r, hr.symm⟩ hnot

/-! ## Whole statements -/

/-- **All imports of a statement are those of its first keyword**, if its body is that of a
statement. -/
theorem StatementText.imports_eq (h : StatementText s body stop) (hshape : BodyShape body) :
    imports s = statementImports (atStart s) stop := by
  obtain ⟨others, hstarts, -⟩ := h.useStarts_eq
  have horder := useStarts_pairwise s
  rw [hstarts, List.pairwise_cons] at horder
  have hothers : ∀ site ∈ others, isSite s site.1 = false := by
    intro site hsite
    by_contra hnot
    have hmem : (site.1, site.2) ∈ useStarts s := hstarts ▸ List.mem_cons_of_mem _ hsite
    have hbehind : stop.offset + byteLength body + 1 ≤ site.1.offset :=
      sites_apart (hstarts ▸ List.mem_cons_self) hmem (horder.1 site hsite)
        (StatementText.isSite_atStart s) (by simpa using hnot) h.statementBody hshape
    -- the statement is the whole text, so no keyword is left behind it
    obtain ⟨hkeyword, hreach⟩ := mem_useStarts hmem
    obtain ⟨-, -, -, -, w, hw, -, hafter, -⟩ := useKeyword?_eq_some hkeyword
    have hpos : 0 < byteLength w := byteLength_pos (List.ne_nil_of_length_pos (by omega))
    have hend : stop.offset + byteLength body + 1 = byteLength s := congrArg Span.stop h.span_eq
    have htext := congrArg byteLength hreach.text_eq
    rw [byteLength_append, byteLength_reverse, hafter, byteLength_append] at htext
    have hoffset : site.1.offset = byteLength site.1.before := rfl
    omega
  rw [UseImports.imports_eq, hstarts, List.flatMap_cons, if_pos (StatementText.isSite_atStart s),
    List.flatMap_eq_nil_iff.mpr, List.append_nil]
  intro site hsite
  rw [hothers site hsite, if_neg Bool.false_ne_true]

theorem StatementText.statementAt_of_ne_nil (h : StatementText s body stop)
    (hne : statementImports (atStart s) stop ≠ []) : StatementAt s body stop := by
  have hread := hne
  rw [statementImports_eq, h.statementBody] at hread
  have himports := h.imports_eq (bodyShape_of_readBody hread)
  exact { h with imports := himports, ne_nil := himports ▸ hne }

/-! ## Unfinished statements -/

/-- A statement that has not come to its end has no length. -/
theorem statementLength?_of_scanState (h : scanState inBraces sawName a = some state) :
    statementLength? inBraces sawName a = none := by
  induction a generalizing inBraces sawName with
  | nil => rfl
  | cons c a ih =>
    obtain ⟨next, hstep, hrest⟩ := Option.bind_eq_some_iff.mp h
    rw [statementLength?_cons, hstep]
    exact congrArg (Option.map (· + 1)) (ih hrest)

/-- The keyword of an import statement is a site of every code that divides in front of it. -/
theorem exists_site_of_statement (hopens : Opens p.reverse) (hlevel : importLevel p p = true)
    (hs : IsStatement s) (x : List Char) :
    ∃ t, ((⟨p.reverse, s ++ x⟩, t) : Cursor × Cursor) ∈ useStarts (p ++ (s ++ x)) ∧
      isSite (p ++ (s ++ x)) ⟨p.reverse, s ++ x⟩ = true := by
  obtain ⟨body, stop, hst⟩ := id hs
  obtain ⟨others, hstarts, -⟩ := hst.useStarts_eq
  have hmem : (atStart s, stop) ∈ useStarts s := hstarts ▸ List.mem_cons_self
  have hopens' := hs.importPlace.opens
  refine ⟨(stop.within [] x).within p.reverse [], ?_, ?_⟩
  · rw [useStarts_append hopens, useStarts_append hopens']
    refine List.mem_append_right _
      (List.mem_map.mpr ⟨_, List.mem_append_left _ (List.mem_map_of_mem hmem), ?_⟩)
    simp [atStart, within]
  · have hback := isSite_back hopens hlevel (s ++ x) ((atStart s).within [] x)
    rw [isSite_front hopens' x hmem, StatementText.isSite_atStart] at hback
    rw [← hback]
    simp [atStart, within]

theorem exists_body_of_ne_nil (h : statementImports k t ≠ []) :
    ∃ body, statementBody? t = some body ∧ BodyShape body := by
  rw [statementImports_eq] at h
  cases hbody : statementBody? t with
  | none =>
    rw [hbody] at h
    exact absurd rfl h
  | some body =>
    rw [hbody] at h
    exact ⟨body, rfl, bodyShape_of_readBody h⟩

section Unfinished

variable (hopens : Opens p.reverse) (hlevel : importLevel p p = true)
    (hw : ∀ c ∈ w, isSpace c = true) (hs : IsStatement s) (x : List Char)

include hopens hlevel hw hs

/-- A `use` that has not come to its end in front of an import declares nothing: its statement
would end in what leaves it unfinished, or in white space. -/
theorem statementImports_of_unfinished (hmem : (k, t) ∈ useStarts p) (hsite : isSite p k = true)
    (hscan : scanState false false t.after = some state) :
    statementImports (k.within [] (w ++ (s ++ x))) (t.within [] (w ++ (s ++ x))) = [] := by
  by_contra hne
  obtain ⟨body, hbody, hshape⟩ := exists_body_of_ne_nil hne
  have hspace : ImportPlace w := (Run.of_space hw).importPlace
  have hlevel' : importLevel (p ++ w) (p ++ w) = true := by
    rw [importLevel_back hopens hlevel]
    exact hspace.level
  have hopens' : Opens (p ++ w).reverse := by
    rw [List.reverse_append]
    exact hspace.opens.append hopens
  obtain ⟨t', hmem', hsite'⟩ := exists_site_of_statement hopens' hlevel' hs x
  rw [List.append_assoc] at hmem' hsite'
  have hmoved : (k.within [] (w ++ (s ++ x)), t.within [] (w ++ (s ++ x))) ∈
      useStarts (p ++ (w ++ (s ++ x))) := by
    rw [useStarts_append hopens]
    exact List.mem_append_left _ (List.mem_map_of_mem hmem)
  obtain ⟨hkeyword, hreach⟩ := mem_useStarts hmem
  obtain ⟨-, -, -, -, v, -, -, hafter, hbefore⟩ := useKeyword?_eq_some hkeyword
  have hp : p = t.before.reverse ++ t.after := by
    rw [hbefore, List.reverse_append, List.reverse_reverse, List.append_assoc, ← hafter]
    exact hreach.text_eq
  have hlen := congrArg List.length hp
  have hbytes := congrArg byteLength hp
  rw [List.length_append, List.length_reverse] at hlen
  rw [byteLength_append, byteLength_reverse] at hbytes
  have hapart := sites_apart hmoved hmem' (by simp; omega)
    (by rw [isSite_front hopens _ hmem]; exact hsite) hsite'
    hbody hshape
  obtain ⟨R, hR⟩ := eq_of_statementBody? hbody
  have hsplit : (body ++ [';']) ++ R = (t.after ++ w) ++ (s ++ x) := by
    rw [List.append_assoc, List.append_assoc]
    exact hR.symm
  have hsemi : (';' : Char).utf8Size = 1 := by decide
  obtain ⟨z, hz, -⟩ := append_eq_append_of_le hsplit (by
    simp only [offset, within_before, List.append_nil, byteLength_reverse,
      byteLength_append] at hapart
    simp only [byteLength_append, byteLength_cons, byteLength_nil, hsemi]
    omega)
  have hsemicolon : ';' ∈ t.after ++ w := by
    rw [hz]
    simp
  rcases List.mem_append.mp hsemicolon with hsemicolon | hsemicolon
  · rw [scanState_of_mem hsemicolon] at hscan
    cases hscan
  · exact absurd (hw _ hsemicolon) (by decide)

/-- **A code is divided in front of an import statement**, also where a `use` in front has not come
to its end. -/
theorem divides_of_statement : Divides p (w ++ (s ++ x)) := by
  refine divides_of_sites hopens hlevel fun k t hmem hsite => ?_
  cases hscan : scanState false false t.after with
  | none =>
    have hbody := statementBody?_within [] (.inr hscan : w ++ (s ++ x) = [] ∨ _)
    rw [statementImports_within hbody, byteLength_nil, Declaration.map_shift_zero]
  | some state =>
    rw [statementImports_of_unfinished hopens hlevel hw hs x hmem hsite hscan, statementImports_eq,
      statementBody?, statementLength?_of_scanState hscan]
    rfl

end Unfinished

end UseImports
