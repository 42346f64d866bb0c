import UseImports.Proofs.Code.Parameters
import UseImports.Proofs.Text.Distinct
import Mathlib.Data.List.Sort

/-!
# References and exchanged runs

The references of a code are what the rules find, in the order of the text, each span once. They can
be told from what is found at each span, so that neither an exchanged run nor a call that a type
hides changes what is referred to.

* `allReferences`: the references of a code.
* `find?_allReferences`: the reference at a span is the first that is found there.
* `allReferences_exchange`: **a run may be exchanged for another one.**
* `Exchanged`, `Exchanged.allReferences_eq`: the same for any number of runs.
* `allReferences_names`: **names that no reference calls may be left out.**
-/

namespace UseImports

open Placed Cursor

variable {s t : Span} {rs : List Reference} {names names' : List String}
    {after before code p : List Char} {n : Nat} {α : Type} {r : Reference}

/-! ## One reference for each span -/

theorem Span.le_iff : s.le t = true ↔ s.start < t.start ∨ s.start = t.start ∧ s.stop ≤ t.stop := by
  simp [Span.le]

theorem Span.le_refl (s : Span) : s.le s = true :=
  Span.le_iff.mpr (.inr ⟨rfl, Nat.le_refl _⟩)

theorem Span.le_trans {v : Span} (h : s.le t = true) (h' : t.le v = true) : s.le v = true := by
  rw [Span.le_iff] at *
  omega

theorem Span.le_total (s t : Span) : (s.le t || t.le s) = true := by
  rw [Bool.or_eq_true, Span.le_iff, Span.le_iff]
  omega

theorem Span.le_antisymm (h : s.le t = true) (h' : t.le s = true) : s = t := by
  rw [Span.le_iff] at *
  cases s
  cases t
  simp only [Span.mk.injEq] at *
  omega

/-- The order in which references are put. -/
abbrev spanOrder (r s : Reference) : Bool :=
  r.span.le s.span

theorem spanOrder_trans (r s t : Reference) (h : spanOrder r s = true) (h' : spanOrder s t = true) :
    spanOrder r t = true :=
  Span.le_trans h h'

theorem spanOrder_total (r s : Reference) : (spanOrder r s || spanOrder s r) = true :=
  Span.le_total r.span s.span

theorem distinctSpans_cons (r : Reference) (rs : List Reference) :
    distinctSpans (r :: rs) = r :: distinctSpans (rs.dropWhile fun s => s.span = r.span) := by
  induction rs generalizing r with
  | nil => rfl
  | cons s rs ih =>
    rw [distinctSpans, ih s, List.dropWhile_cons]
    by_cases hspan : r.span = s.span
    · simp [hspan]
    · simp only [hspan, Ne.symm hspan, if_false, decide_false, Bool.false_eq_true]
      rw [ih s]

theorem keepsFirst_distinctSpans : KeepsFirst Reference.span distinctSpans :=
  ⟨rfl, distinctSpans_cons⟩

/-- The first reference comes before the second, and they have different spans. -/
def Reference.Before (r s : Reference) : Prop :=
  spanOrder r s = true ∧ r.span ≠ s.span

instance : Std.Irrefl Reference.Before :=
  ⟨fun _ h => h.2 rfl⟩

instance : Std.Antisymm Reference.Before :=
  ⟨fun _ _ h h' => absurd (Span.le_antisymm h.1 h'.1) h.2⟩

/-- In order, and no span twice. -/
def StrictlyOrdered (rs : List Reference) : Prop :=
  rs.Pairwise Reference.Before

theorem strictlyOrdered_distinctSpans (h : rs.Pairwise fun r s => spanOrder r s = true) :
    StrictlyOrdered (distinctSpans rs) :=
  keepsFirst_distinctSpans.pairwise (r := fun s t => s.le t = true) Span.le_antisymm h

/-- References in order are known from what stands at each span. -/
theorem StrictlyOrdered.ext {ss : List Reference} (hr : StrictlyOrdered rs)
    (hs : StrictlyOrdered ss) (h : ∀ s, rs.find? (·.span = s) = ss.find? (·.span = s)) :
    rs = ss := by
  have hmem : ∀ {L : List Reference}, StrictlyOrdered L → ∀ r,
      r ∈ L ↔ L.find? (·.span = r.span) = some r := by
    intro L hL r
    constructor
    · intro hr
      induction L with
      | nil => cases hr
      | cons t L ih =>
        obtain ⟨ht, hL⟩ := List.pairwise_cons.mp hL
        rw [List.find?_cons]
        rcases List.mem_cons.mp hr with rfl | hr
        · simp
        · simp [(ht r hr).2, ih hL hr]
    · exact List.mem_of_find?_eq_some
  refine List.Pairwise.eq_of_mem_iff hr hs fun r => ?_
  rw [hmem hr, hmem hs, h]

/-- Sorting leaves the first reference of each span in front of the others. -/
theorem find?_mergeSort (rs : List Reference) (s : Span) :
    (rs.mergeSort spanOrder).find? (·.span = s) = rs.find? (·.span = s) := by
  have hsame : ∀ r t : Reference, decide (r.span = s) → decide (t.span = s) → spanOrder r t :=
    fun r t hr ht => by
    show r.span.le t.span = true
    rw [of_decide_eq_true hr, of_decide_eq_true ht]
    exact Span.le_refl s
  rw [← List.head?_filter, ← List.head?_filter,
    filter_mergeSort spanOrder_trans spanOrder_total hsame]

/-! ## The references of a code -/

/-- All that the rules find in a code, rule by rule. -/
def foundReferences (code : List Char) (names : List String) : List Reference :=
  typeRules.flatMap (ruleReferences code) ++ callReferences code names

/-- The references of a code in which the functions with the given local names are imported. -/
def allReferences (code : List Char) (names : List String) : List Reference :=
  distinctSpans ((foundReferences code names).mergeSort spanOrder)

theorem references_eq_allReferences (d : Document) (table : AliasTable) :
    references d d.declarations table = allReferences d.code (table.names .function) := by
  unfold references allReferences foundReferences typeReferences
  dsimp only
  rw [functionCalls_eq]
  simp only [references_eq]

theorem strictlyOrdered_allReferences (code : List Char) (names : List String) :
    StrictlyOrdered (allReferences code names) :=
  strictlyOrdered_distinctSpans (List.pairwise_mergeSort spanOrder_trans spanOrder_total _)

/-- **The reference at a span is the first that is found there.** -/
theorem find?_allReferences (code : List Char) (names : List String) (s : Span) :
    (allReferences code names).find? (·.span = s) = (foundReferences code names).find?
    (·.span = s) := by
  unfold allReferences
  rw [keepsFirst_distinctSpans.find?_eq, find?_mergeSort]

/-! ## Exchanged runs -/

theorem aroundRuns_found (hne : "" ∉ names) (hp : Opens p.reverse) (q : List Char) :
    AroundRuns p q fun u => foundReferences (p ++ (u ++ q)) names := by
  have hrules : ∀ rules : List Rule,
      AroundRuns p q fun u => rules.flatMap (ruleReferences (p ++ (u ++ q))) := by
    intro rules
    induction rules with
    | nil => exact ⟨[], by simp, fun _ _ => rfl⟩
    | cons rule rules ih =>
      have hrule : AroundRuns p q fun u => ruleReferences (p ++ (u ++ q)) rule := by
        by_cases h : rule = .parameterHint
        · rw [h]
          exact aroundRuns_parameter hp q
        · exact aroundRuns_rule h p q
      exact hrule.append ih
  exact (hrules typeRules).append (aroundRuns_call hne p q)

/-- Whether one reference comes before another does not depend on the run between them. -/
theorem le_place {p : Nat} {L : List (Reference ⊕ Reference)}
    (hL : ∀ a, .inl a ∈ L → a.span.start < p) {m : Nat} (hm : p ≤ m) (hn : p ≤ n)
    {x y : Reference ⊕ Reference} (hx : x ∈ L) (hy : y ∈ L) :
    spanOrder (place m x) (place m y) = spanOrder (place n x) (place n y) := by
  rw [Bool.eq_iff_iff, Span.le_iff, Span.le_iff]
  rcases x with a | a <;> rcases y with b | b
  · exact Iff.rfl
  · have := hL a hx
    dsimp only [place, Sum.elim_inl, Sum.elim_inr, id, Reference.shift, Span.shift]
    omega
  · have := hL b hy
    dsimp only [place, Sum.elim_inl, Sum.elim_inr, id, Reference.shift, Span.shift]
    omega
  · dsimp only [place, Sum.elim_inr, Reference.shift, Span.shift]
    omega

theorem dropWhile_congr {f g : α → Bool} {L : List α} (h : ∀ x ∈ L, f x = g x) :
    L.dropWhile f = L.dropWhile g := by
  induction L with
  | nil => rfl
  | cons x L ih =>
    rw [List.dropWhile_cons, List.dropWhile_cons, h x List.mem_cons_self,
      ih fun y hy => h y (List.mem_cons_of_mem x hy)]

/-- What is left of references that are in the same order has the same meanings. -/
theorem distinctSpans_congr {f g : α → Reference} (hmeaning : ∀ x, (f x).meaning = (g x).meaning)
    {L : List α} (hspan : ∀ x ∈ L, ∀ y ∈ L, (f x).span = (f y).span ↔ (g x).span = (g y).span) :
    (distinctSpans (L.map f)).map Reference.meaning =
    (distinctSpans (L.map g)).map Reference.meaning := by
  induction L using KeepsFirst.induction fun x => (g x).span with
  | nil => rfl
  | cons x L ih =>
    have hdrop : L.dropWhile ((fun s => decide (s.span = (f x).span)) ∘ f) =
        L.dropWhile fun y => decide ((g y).span = (g x).span) := by
      refine dropWhile_congr fun y hy => ?_
      simp [hspan y (List.mem_cons_of_mem x hy) x List.mem_cons_self]
    have hsub := List.dropWhile_sublist (l := L) fun y => decide ((g y).span = (g x).span)
    rw [List.map_cons, List.map_cons, distinctSpans_cons, distinctSpans_cons, List.dropWhile_map,
      List.dropWhile_map, hdrop, List.map_cons, List.map_cons, hmeaning]
    congr 1
    refine ih fun y hy z hz => ?_
    exact hspan y (List.mem_cons_of_mem x (hsub.subset hy)) z
      (List.mem_cons_of_mem x (hsub.subset hz))

/-- **A run may be exchanged for another one**: the code refers to the same names in the same order.
-/
theorem allReferences_exchange (hne : "" ∉ names) {u v q : List Char} (hu : RunBetween p u q)
    (hv : RunBetween p v q) :
    (allReferences (p ++ (v ++ q)) names).map Reference.meaning =
      (allReferences (p ++ (u ++ q)) names).map Reference.meaning := by
  obtain ⟨L, hL, hfound⟩ := aroundRuns_found hne hu.divides.opens q
  have hle : ∀ w : List Char, RunBetween p w q → ∀ x ∈ L, ∀ y ∈ L,
      spanOrder (place (byteLength p) x) (place (byteLength p) y) =
        spanOrder (place (byteLength p + byteLength w) x) (place (byteLength p + byteLength w) y) :=
    fun w _ x hx y hy => le_place hL (Nat.le_refl _) (Nat.le_add_right _ _) hx hy
  have hsort : ∀ w, RunBetween p w q → allReferences (p ++ (w ++ q)) names =
      distinctSpans ((L.mergeSort fun x y =>
        spanOrder (place (byteLength p) x) (place (byteLength p) y)).map
          (place (byteLength p + byteLength w))) := by
    intro w hw
    have hw' : foundReferences (p ++ (w ++ q)) names = _ := hfound w hw
    unfold allReferences
    rw [hw', List.map_mergeSort (hle w hw)]
  rw [hsort u hu, hsort v hv]
  refine distinctSpans_congr (fun x => ?_) fun x hx y hy => ?_
  · cases x <;> rfl
  · have hx' := (List.mergeSort_perm _ _).subset hx
    have hy' := (List.mergeSort_perm _ _).subset hy
    have hspan : ∀ w, RunBetween p w q → ((place (byteLength p + byteLength w) x).span =
        (place (byteLength p + byteLength w) y).span ↔
          spanOrder (place (byteLength p) x) (place (byteLength p) y) = true ∧
            spanOrder (place (byteLength p) y) (place (byteLength p) x) = true) := by
      intro w hw
      rw [hle w hw x hx' y hy', hle w hw y hy' x hx']
      constructor
      · intro h
        rw [spanOrder, spanOrder, h]
        exact ⟨Span.le_refl _, Span.le_refl _⟩
      · rintro ⟨h, h'⟩
        exact Span.le_antisymm h h'
    rw [hspan v hv, hspan u hu]

/-- The second code comes from the first by exchanging runs for runs. -/
inductive Exchanged : List Char → List Char → Prop
  | refl (x : List Char) : Exchanged x x
  | step {p u v q x : List Char} : ImportPlace p → Run u → Run v → Exchanged (p ++ (v ++ q)) x →
      Exchanged (p ++ (u ++ q)) x

namespace Exchanged

variable {x y : List Char}

/-- Exchanging runs behind an import place. -/
theorem behind (hp : ImportPlace p) (h : Exchanged x y) : Exchanged (p ++ x) (p ++ y) := by
  induction h with
  | refl => exact .refl _
  | step hp' hu hv _ ih =>
    rw [← List.append_assoc] at ih ⊢
    exact .step ((importPlace_append_iff hp _).mpr hp') hu hv ih

/-- **Exchanging runs keeps what a code refers to.** -/
theorem allReferences_eq (hne : "" ∉ names) (h : Exchanged x y) :
    (allReferences y names).map Reference.meaning =
    (allReferences x names).map Reference.meaning := by
  induction h with
  | refl => rfl
  | step hp hu hv _ ih =>
    exact ih.trans (allReferences_exchange hne (hu.between hp _) (hv.between hp _))

end Exchanged

/-! ## Names of functions -/

/-- The matches of a reader at every place of a text, overlapping ones too. -/
def findEvery {α : Type} (r : Cursor → Option (α × Cursor)) : (before after : List Char) → List α
  | _, [] => []
  | before, c :: after =>
    ((r ⟨before, c :: after⟩).map (·.1)).toList ++ findEvery r (c :: before) after

/-- Where no match begins inside another one, a search finds all of them. -/
theorem findFrom_eq_findEvery {r : Cursor → Option (α × Cursor)}
    (hr : ∀ {before c after a stop}, r ⟨before, c :: after⟩ = some (a, stop) →
      ∀ k < after.length - stop.after.length, r (advance k ⟨c :: before, after⟩) = none)
    (hn : ∀ k < n, r (advance k ⟨before, after⟩) = none) :
    findFrom r n before after = findEvery r before after := by
  have hadvance : ∀ k c (before after : List Char),
      advance (k + 1) ⟨before, c :: after⟩ = advance k ⟨c :: before, after⟩ := by
    intro k c before after
    simp [advance]
  induction after generalizing n before with
  | nil => simp [findEvery]
  | cons c after ih =>
    cases n with
    | succ n =>
      have hnone : r ⟨before, c :: after⟩ = none := hn 0 (Nat.succ_pos n)
      rw [findFrom, findEvery, hnone, ih fun k hk => ?_]
      · rfl
      · rw [← hadvance]
        exact hn (k + 1) (Nat.succ_lt_succ hk)
    | zero =>
      rw [findFrom_zero_cons, findEvery]
      cases hc : r ⟨before, c :: after⟩ with
      | none => exact ih fun k hk => absurd hk (Nat.not_lt_zero k)
      | some found =>
        obtain ⟨a, stop⟩ := found
        dsimp only
        rw [ih (hr hc)]
        rfl

theorem call?_eq_none (hne : "" ∉ names) {c : Cursor}
    (h : c.atWordStart = false ∨ c.after.head?.any isWordChar = false) : c.call? names = none := by
  rw [call?_eq, if_neg]
  rw [Bool.and_eq_true, not_and]
  intro hstart hmem
  rcases h with h | h
  · rw [h] at hstart
    cases hstart
  · rw [takeWhile_of_head h] at hmem
    exact hne (by simpa using hmem)

/-- No call begins inside another one. -/
theorem call?_spaced (hne : "" ∉ names) {c : Char} {a : Phrase} {stop : Cursor}
    (h : call? names ⟨before, c :: after⟩ = some (a, stop)) :
    ∀ k < after.length - stop.after.length,
      call? names (advance k ⟨c :: before, after⟩) = none := by
  intro k hk
  rw [call?_eq] at h
  split at h
  · obtain ⟨last, hlast, heq⟩ := Option.map_eq_some_iff.mp h
    cases heq
    -- the word, the white space behind it and the parenthesis
    obtain ⟨w, b, r, htext, hw, hb, hr⟩ : ∃ w b r, c :: after = w ++ (b ++ '(' :: r) ∧
        (∀ x ∈ w, isWordChar x = true) ∧ (∀ x ∈ b, isBlank x = true) ∧ stop.after = r := by
      obtain ⟨b, r, hrest, hb, rfl⟩ := paren?_eq_some_iff.mp hlast
      have hsplit := (c :: after).takeWhile_append_dropWhile (p := isWordChar)
      rw [show (c :: after).dropWhile isWordChar = b ++ '(' :: r from hrest] at hsplit
      exact ⟨_, b, r, hsplit.symm, fun _ => List.mem_takeWhile_imp, hb, rfl⟩
    have hlen := congrArg List.length htext
    simp only [List.length_cons, List.length_append] at hlen
    rw [hr] at hk
    have hcursor : advance k ⟨c :: before, after⟩ = advance (k + 1) ⟨before, c :: after⟩ := by
      simp [advance]
    rw [hcursor]
    refine call?_eq_none hne ?_
    by_cases hkw : k < w.length
    · left
      have hhead : ((c :: after).take (k + 1)).getLast? = some (w.get ⟨k, hkw⟩) := by
        rw [List.getLast?_take, if_neg (Nat.succ_ne_zero k), htext, Nat.add_sub_cancel,
          List.getElem?_append_left hkw, List.getElem?_eq_getElem hkw]
        rfl
      unfold atWordStart advance
      dsimp only
      rw [List.head?_append, List.head?_reverse, hhead, Option.some_or, Option.any_some,
        hw _ (List.get_mem w ⟨k, hkw⟩)]
      rfl
    · right
      have hj : k + 1 - w.length < (b ++ ['(']).length := by
        rw [List.length_append, List.length_singleton]
        omega
      have hsplit : b ++ '(' :: r = (b ++ ['(']) ++ r := by simp
      have hhead : (advance (k + 1) ⟨before, c :: after⟩).after.head? =
          some ((b ++ ['(']).get ⟨k + 1 - w.length, hj⟩) := by
        unfold advance
        dsimp only
        rw [List.head?_drop, htext, List.getElem?_append_right (by omega), hsplit,
          List.getElem?_append_left hj, List.getElem?_eq_getElem hj]
        rfl
      rw [hhead, Option.any_some]
      rcases List.mem_append.mp (List.get_mem (b ++ ['(']) ⟨k + 1 - w.length, hj⟩) with hx | hx
      · exact isWordChar_of_isBlank (hb _ hx)
      · rw [List.mem_singleton.mp hx]
        decide
  · cases h

theorem findAll_call (hne : "" ∉ names) (code : List Char) :
    (atStart code).findAll (call? names) = findEvery (call? names) [] code :=
  findFrom_eq_findEvery (call?_spaced hne) fun _ hk => absurd hk (Nat.not_lt_zero _)

/-- The word between the two places of a call. -/
theorem upTo_skipWhile (p : Char → Bool) (c : Cursor) :
    c.upTo (c.skipWhile p) = c.after.takeWhile p := by
  have hlen := congrArg List.length (c.after.takeWhile_append_dropWhile (p := p))
  rw [List.length_append] at hlen
  unfold upTo skipWhile
  dsimp only
  rw [show c.after.length - (c.after.dropWhile p).length = (c.after.takeWhile p).length by omega]
  exact List.prefix_iff_eq_take.mp (List.takeWhile_prefix p) |>.symm

/-- The name of a called function is one of those sought. -/
theorem call?_subset (hsub : names' ⊆ names) (c : Cursor) :
    (c.call? names').map (·.1) = ((c.call? names).map (·.1)).filter fun p =>
      names'.contains (String.ofList (p.start.upTo p.stop)) := by
  rw [call?_eq, call?_eq]
  cases c.atWordStart with
  | false => rfl
  | true =>
    simp only [Bool.true_and]
    by_cases hmem : String.ofList (c.after.takeWhile isWordChar) ∈ names'
    · rw [if_pos (by simpa using hmem), if_pos (by simpa using hsub hmem)]
      cases (c.skipWhile isWordChar).skipBlanks.literal? "(" with
      | none => rfl
      | some last =>
        rw [Option.map_some, Option.map_some, Option.filter_some, upTo_skipWhile,
          if_pos (by simpa using hmem)]
    · rw [if_neg (by simpa using hmem)]
      split
      · cases (c.skipWhile isWordChar).skipBlanks.literal? "(" with
        | none => rfl
        | some last =>
          rw [Option.map_some, Option.map_some, Option.filter_some, upTo_skipWhile,
            if_neg (by simpa using hmem)]
          rfl
      · rfl

/-- Seeking fewer names finds fewer calls. -/
theorem callReferences_subset (hne : "" ∉ names) (hsub : names' ⊆ names) (code : List Char) :
    callReferences code names' = (callReferences code names).filter fun r =>
      names'.contains r.name := by
  have hevery : ∀ before after, findEvery (call? names') before after =
      (findEvery (call? names) before after).filter fun p =>
        names'.contains (String.ofList (p.start.upTo p.stop)) := by
    intro before after
    induction after generalizing before with
    | nil => rfl
    | cons c after ih =>
      rw [findEvery, findEvery, List.filter_append, ih, call?_subset hsub]
      congr 1
      cases (call? names ⟨before, c :: after⟩).map (·.1) with
      | none => rfl
      | some p =>
        rw [Option.filter_some, Option.toList_some, List.filter_cons]
        split <;> rfl
  unfold callReferences
  rw [findAll_call fun h => hne (hsub h), findAll_call hne, hevery, List.filter_flatMap]
  induction findEvery (call? names) [] code with
  | nil => rfl
  | cons p ps ih =>
    rw [List.filter_cons, List.flatMap_cons, ← ih]
    have hname : ∀ r ∈ gatherCall code p, r.name = String.ofList (p.start.upTo p.stop) := by
      intro r hr
      unfold gatherCall at hr
      split at hr
      · rw [List.mem_singleton.mp hr]
      · cases hr
    have hfilter : (gatherCall code p).filter (fun r => names'.contains r.name) =
        if names'.contains (String.ofList (p.start.upTo p.stop)) then
          gatherCall code p else [] := by
      split
      · rename_i hmem
        exact List.filter_eq_self.mpr fun r hr => by rw [hname r hr, hmem]
      · rename_i hmem
        exact List.filter_eq_nil_iff.mpr fun r hr => by rwa [hname r hr]
    rw [hfilter]
    split <;> rfl

/-- What the rules for types find are types, and calls are calls. -/
theorem kind_of_mem_ruleReferences {rule : Rule} (h : r ∈ ruleReferences code rule) :
    r.kind = .type := by
  obtain ⟨phrase, -, hgather⟩ := List.mem_flatMap.mp h
  unfold gather at hgather
  split at hgather
  · obtain ⟨found, -, rfl⟩ := List.mem_map.mp hgather
    rfl
  · cases hgather

theorem kind_of_mem_callReferences (h : r ∈ callReferences code names) : r.kind = .function := by
  obtain ⟨phrase, -, hgather⟩ := List.mem_flatMap.mp h
  unfold gatherCall at hgather
  split at hgather
  · rw [List.mem_singleton.mp hgather]
  · cases hgather

/-- What is found first and stays is still found first. -/
theorem find?_filter_of_pos {p q : α → Bool} {L : List α} {x : α} (h : L.find? p = some x)
    (hx : q x = true) : (L.filter q).find? p = some x := by
  obtain ⟨hp, as, bs, rfl, has⟩ := List.find?_eq_some_iff_append.mp h
  rw [List.filter_append, List.filter_cons, if_pos hx]
  exact List.find?_eq_some_iff_append.mpr ⟨hp, _, _, rfl,
    fun a ha => has a (List.mem_filter.mp ha).1⟩

/-- **Names that no reference calls may be left out.** -/
theorem allReferences_names (hne : "" ∉ names) (hsub : names' ⊆ names)
    (hcalled : ∀ r ∈ allReferences code names, r.kind = .function → r.name ∈ names') :
    allReferences code names' = allReferences code names := by
  refine (strictlyOrdered_allReferences code names').ext (strictlyOrdered_allReferences code names)
    fun s => ?_
  have hfirst := find?_allReferences code names s
  rw [find?_allReferences, hfirst]
  unfold foundReferences at hfirst ⊢
  rw [List.find?_append] at hfirst
  rw [List.find?_append, List.find?_append, callReferences_subset hne hsub]
  cases htype : (typeRules.flatMap (ruleReferences code)).find? (·.span = s) with
  | some r => rfl
  | none =>
    rw [htype, Option.none_or] at hfirst
    rw [Option.none_or, Option.none_or]
    cases hcall : (callReferences code names).find? (·.span = s) with
    | none =>
      rw [List.find?_eq_none] at hcall ⊢
      exact fun r hr => hcall r (List.mem_filter.mp hr).1
    | some r =>
      -- the first call at the span is a reference, so its name stays
      have hmem : r ∈ callReferences code names := List.mem_of_find?_eq_some hcall
      have hname := hcalled r (List.mem_of_find?_eq_some (hfirst.trans hcall))
        (kind_of_mem_callReferences hmem)
      exact find?_filter_of_pos hcall (by simpa using hname)

end UseImports
