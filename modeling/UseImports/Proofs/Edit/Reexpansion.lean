import UseImports.Proofs.Code.Hidden
import UseImports.Proofs.Declaration.Substituted
import UseImports.Proofs.Edit.Expansion
import UseImports.Proofs.Edit.Landing

/-!
# Expanding what has been expanded

References are not expanded on the lines of import statements, of the namespace and of classes
(`declaration_lines`). Expanding changes none of these lines, and they stay what they are: a
statement stands where it stood and at import level, the namespace of the document is the same one,
and a class is found where it was. So a reference that could be expanded afterwards could have been
expanded before. The one exception is a full name whose last segment is read as the keyword `class`,
since a long s is taken for an s there: it takes the keyword of the class behind it for its name
(`expansion_hides_class`).

* `lineOf_codeView`: a text and its view have the same lines.
* `StatementLine`, `NamespaceLine`, `ClassLine`, `mem_declarationLines_iff`: the lines on which
  nothing is expanded.
* `StatementLine.reword`, `NamespaceLine.reword`, `ClassLine.reword`: **they stay so** when one word
  is replaced.
* `weave_induction`, `Expanded.declarationLines_subset`: the same for all words.
* `exists_before_expansion`: a place outside of the new names, before they were put in.
* `expansion_idempotent`: **expanding once more changes nothing.**
-/

namespace UseImports

open Cursor

variable {A a b g P P₀ s t u w x : List Char} {cs : List (List Char)} {n : Nat} {doc : Document}
    {q : String}

/-! ## The lines of the code -/

theorem lineOf_spaces (k n : Nat) (cs : List Char) :
    lineOf (List.replicate k ' ' ++ cs) n = if k ≤ n then lineOf cs (n - k) else 0 := by
  have hsize : ' '.utf8Size = 1 := by decide
  induction k generalizing n with
  | zero => simp
  | succ k ih =>
    rw [List.replicate_succ, List.cons_append, lineOf, ih, hsize, if_neg (by decide : ' ' ≠ '\n')]
    by_cases hn : k + 1 ≤ n
    · rw [if_pos (by omega), if_pos (by omega), if_pos hn, Nat.zero_add, Nat.sub_sub,
        Nat.add_comm 1 k]
    · rw [if_neg hn]
      split
      · rw [if_neg (by omega)]
      · rfl

theorem lineOf_render {cs : List Char} (h : ∀ n, lineOf t n = lineOf cs n) (c : Char) (v : Verdict)
    (n : Nat) : lineOf (v.render c ++ t) n = lineOf (c :: cs) n := by
  cases v with
  | keep => simp only [Verdict.render, List.singleton_append, lineOf, h]
  | blank =>
    by_cases hc : c = '\n' ∨ c = '\r'
    · simp only [Verdict.render, if_pos hc, List.singleton_append, lineOf, h]
    · rw [Verdict.render, if_neg hc, lineOf_spaces, lineOf, if_neg fun hbreak =>
        hc (.inl hbreak), h, Nat.zero_add]

theorem lineOf_viewFrom {known : List Verdict} {m : Mode} {cs : List Char}
    (h : viewFrom known m cs = .ok t) (n : Nat) : lineOf t n = lineOf cs n := by
  induction cs generalizing known m t n with
  | nil =>
    rw [viewFrom_nil] at h
    cases h
    rfl
  | cons c cs ih =>
    cases known with
    | cons v known =>
      obtain ⟨t, ht, rfl⟩ := map_ok_iff.mp (viewFrom_known v known m c cs ▸ h)
      exact lineOf_render (ih ht) c v n
    | nil =>
      rw [viewFrom_step] at h
      split at h
      · obtain ⟨t, ht, rfl⟩ := map_ok_iff.mp h
        exact lineOf_render (ih ht) c _ n
      · cases h

/-- **A text and its view have the same lines.** -/
theorem lineOf_codeView {text code : List Char} (h : codeView text = .ok code) (n : Nat) :
    lineOf text n = lineOf code n :=
  (lineOf_viewFrom (codeView_eq text ▸ h) n).symm

/-! ## Declaration lines -/

/-- The statement stands at import level, and its first line is the given one. -/
def StatementLine (code s : List Char) (n : Nat) : Prop :=
  ∃ P y, code = P ++ (s ++ y) ∧ Opens P.reverse ∧ importLevel P P = true ∧ breaks P = n

/-- The namespace of the document begins on the line. -/
def NamespaceLine (code : List Char) (n : Nat) : Prop :=
  ∃ P, NamespaceBegins code P ∧ (∀ Q, NamespaceBegins code Q → P.length ≤ Q.length) ∧ breaks P = n

/-- The name of a class stands on the line. -/
def ClassLine (code : List Char) (n : Nat) : Prop :=
  ∃ P k g v R, ClassAt code P k g v R ∧ ClassFound code P ∧
    (P.reverse.take 2 == [':', ':']) = false ∧
    isReserved (String.ofList v) = false ∧ breaks (P ++ (k ++ g)) = n

theorem mem_drop_range {first last : Nat} :
    n ∈ (List.range (last + 1)).drop first ↔ first ≤ n ∧ n ≤ last := by
  rw [List.range_eq_range', List.drop_range', List.mem_range'_1]
  omega

section Lines

variable (hlines : ∀ n, lineOf doc.text n = lineOf doc.code n)
include hlines

theorem lineOf_of_split {B : List Char} (h : doc.code = A ++ B) :
    doc.lineOf (byteLength A) = breaks A := by
  rw [Document.lineOf, hlines, h, lineOf_append]

theorem mem_importLines_iff :
    n ∈ (doc.declarations.flatMap fun d =>
      (List.range ((lineExtent doc.text d.statement).2 + 1)).drop
      (lineExtent doc.text d.statement).1) ↔
      ∃ s m, IsStatement s ∧ StatementLine doc.code s m ∧ m ≤ n ∧ n ≤ m + breaks s := by
  have hextent : ∀ {P s y : List Char}, IsStatement s → doc.code = P ++ (s ++ y) →
      lineExtent doc.text ⟨byteLength P, byteLength P + byteLength s⟩ =
        (breaks P, breaks P + breaks s) := by
    intro P s y hs hcode
    obtain ⟨s', hs'⟩ := hs.exists_semicolon
    have := lineExtent_append (A := P) (S := s) (Y := y) (by rw [hs']; simp)
    rw [← hcode, breaks_append] at this
    rw [← this, lineExtent, lineExtent, hlines, hlines]
  rw [List.mem_flatMap]
  constructor
  · rintro ⟨d, hd, hn⟩
    obtain ⟨P, s, y, hcode, hs, hstatement, hopens, hlevel⟩ := exists_statement_of_import hd
    rw [hstatement, hextent hs hcode, mem_drop_range] at hn
    exact ⟨s, breaks P, hs, ⟨P, y, hcode, hopens, hlevel, rfl⟩, hn⟩
  · rintro ⟨s, m, hs, ⟨P, y, hcode, hopens, hlevel, rfl⟩, hle, hle'⟩
    obtain ⟨body, stop, hat⟩ := hs
    obtain ⟨d, hd⟩ := List.exists_mem_of_ne_nil _ hat.ne_nil
    have hmem : d.shift (byteLength P) ∈ imports doc.code := by
      have hdivides : Divides P (s ++ y) :=
        divides_of_statement hopens hlevel (w := []) (by simp) ⟨body, stop, hat⟩ y
      rw [hcode, hdivides.apart, imports_append (IsStatement.importPlace ⟨body, stop, hat⟩),
        List.map_append]
      exact List.mem_append_right _ (List.mem_append_left _ (List.mem_map_of_mem hd))
    rw [← declarations_unlined] at hmem
    obtain ⟨d', hd', heq⟩ := List.mem_map.mp hmem
    have hstatement : d'.statement = ⟨byteLength P, byteLength P + byteLength s⟩ := by
      have := congrArg Declaration.statement heq
      rw [show (d.shift (byteLength P)).statement = d.statement.shift (byteLength P) from rfl,
        hat.statement_eq hd] at this
      exact this
    refine ⟨d', hd', ?_⟩
    rw [hstatement, hextent ⟨body, stop, hat⟩ hcode, mem_drop_range]
    exact ⟨hle, hle'⟩

theorem mem_namespaceLines_iff :
    (∃ o, (∃ ns, doc.ownNamespace? = some ns ∧ ns.statement.start = o) ∧ n = doc.lineOf o) ↔
      NamespaceLine doc.code n := by
  constructor
  · rintro ⟨o, hown, rfl⟩
    obtain ⟨P, hP, hfirst, rfl⟩ := (@exists_ownNamespace_iff doc.text doc.code _).mp hown
    obtain ⟨-, k, g, name, g', e, R, hat⟩ := id hP
    exact ⟨P, hP, hfirst, (lineOf_of_split hlines hat.text).symm⟩
  · rintro ⟨P, hP, hfirst, rfl⟩
    obtain ⟨-, k, g, name, g', e, R, hat⟩ := id hP
    exact ⟨byteLength P, exists_ownNamespace_iff.mpr ⟨P, hP, hfirst, rfl⟩,
      (lineOf_of_split hlines hat.text).symm⟩

theorem mem_classLines_iff :
    n ∈ doc.classSpans.map (fun s => doc.lineOf s.start) ↔ ClassLine doc.code n := by
  have hline : ∀ {P k g v R : List Char}, ClassAt doc.code P k g v R →
      doc.lineOf (byteLength (P ++ (k ++ g))) = breaks (P ++ (k ++ g)) := fun {P k g v R} hat =>
    lineOf_of_split hlines (B := v ++ R) (by rw [hat.text]; simp only [List.append_assoc])
  rw [List.mem_map]
  constructor
  · rintro ⟨span, hspan, rfl⟩
    obtain ⟨P, k, g, v, R, hat, hfound, hcolons, hfree, rfl⟩ :=
      (@mem_classSpans_iff doc.text doc.code _).mp hspan
    exact ⟨P, k, g, v, R, hat, hfound, hcolons, hfree, (hline hat).symm⟩
  · rintro ⟨P, k, g, v, R, hat, hfound, hcolons, hfree, rfl⟩
    exact ⟨_, mem_classSpans_iff.mpr ⟨P, k, g, v, R, hat, hfound, hcolons, hfree, rfl⟩, hline hat⟩

/-- **The lines on which nothing is expanded**: those of import statements, of the namespace and of
classes. -/
theorem mem_declarationLines_iff : n ∈ declarationLines doc ↔
    (∃ s m, IsStatement s ∧ StatementLine doc.code s m ∧ m ≤ n ∧ n ≤ m + breaks s) ∨
    NamespaceLine doc.code n ∨
      ClassLine doc.code n := by
  rw [← mem_importLines_iff hlines, ← mem_namespaceLines_iff hlines, ← mem_classLines_iff hlines]
  unfold declarationLines
  rw [List.append_assoc, List.mem_append, List.mem_append]
  refine or_congr Iff.rfl (or_congr ?_ Iff.rfl)
  cases doc.ownNamespace? with
  | none => simp
  | some ns => simp

end Lines

/-! ## One word -/

section Word

variable {v : List Char}

theorem IsPath.breaks_eq (h : IsPath u) : breaks u = 0 :=
  breaks_eq_zero fun hmem => absurd (h.isPathChar _ hmem) (by decide)

/-- A statement on other lines stands at import level as before. -/
theorem StatementLine.reword (h : StatementLine (a ++ (u ++ b)) s n)
    (hline : ¬ (n ≤ breaks a ∧ breaks a ≤ n + breaks s)) (hu : Amid a u b) (hv : Amid a v b)
    (hident : IsIdent u) (hfree : u.map foldLetter ≠ "namespace".toList) :
    StatementLine (a ++ (v ++ b)) s n := by
  obtain ⟨P, y, hcode, hopens, hlevel, rfl⟩ := h
  rcases append_eq_append_cases hcode with ⟨t, rfl, hrest⟩ | ⟨x, t, rfl, hrest⟩
  · rcases append_eq_append_cases hrest with ⟨B, rfl, hb⟩ | ⟨x, z, hsplit, -⟩
    · -- the statement stands behind the word
      have hmoved : Moved a u v b (a ++ (u ++ B)) (a ++ (v ++ B)) := .back hb
      refine ⟨a ++ (v ++ B),
        y, by rw [hb]; simp only [List.append_assoc], hmoved.opens hu.name hopens,
        importLevel_moved (hu.of_append hb) (hv.of_append hb) hident hfree hlevel, ?_⟩
      exact (hmoved.breaks_eq hu.name.breaks_eq hv.name.breaks_eq).symm
    · -- it would begin on the line of the word
      have hzero : breaks t = 0 := by
        have := hu.name.breaks_eq
        rw [hsplit, breaks_append] at this
        omega
      rw [breaks_append] at hline
      omega
  · rcases append_eq_append_cases hrest with ⟨z, hz, hy⟩ | ⟨c, z, hz, -⟩
    · -- the word stands behind the statement
      exact ⟨P, z ++ (v ++ b), by rw [hz]; simp only [List.append_assoc], hopens, hlevel, rfl⟩
    · -- the word would stand inside of it
      rw [hz, breaks_append, breaks_append] at hline
      omega

theorem NamespaceLine.reword (h : NamespaceLine (a ++ (u ++ b)) n) (hu : Amid a u b)
    (hv : Amid a v b) (hfree : u.map foldLetter ≠ "namespace".toList)
    (hfree' : v.map foldLetter ≠ "namespace".toList) :
    NamespaceLine (a ++ (v ++ b)) n := by
  obtain ⟨P, hP, hfirst, rfl⟩ := h
  obtain ⟨P', hP', hfirst', hmoved⟩ := hP.first_moved hfirst hu hv hfree hfree'
  exact ⟨P', hP', hfirst', (hmoved.breaks_eq hu.name.breaks_eq hv.name.breaks_eq).symm⟩

/-- A class whose name stands on another line is found as before. -/
theorem ClassLine.reword (h : ClassLine (a ++ (u ++ b)) n) (hline : breaks a ≠ n) (hu : Amid a u b)
    (hv : Amid a v b) (hfree : NoClassWord u) (hfree' : NoClassWord v) :
    ClassLine (a ++ (v ++ b)) n := by
  obtain ⟨P, k, g, name, R, hat, hfound, hcolons, hname, rfl⟩ := h
  obtain ⟨P', R', hat', hmoved, hmoved'⟩ := hat.moved (v := v) hu hfree fun heq =>
    hline (by rw [heq])
  refine ⟨P', k, g, name, R', hat', hfound.moved (Nat.le_refl _) hmoved hu hv hfree hfree' hat hat',
    hmoved.colons hu.name hv.name hat.front hcolons, hname, ?_⟩
  exact (hmoved'.breaks_eq hu.name.breaks_eq hv.name.breaks_eq).symm

end Word

/-! ## All words -/

/-- **What is kept when one word is replaced is kept when all of them are.** They are replaced from
the last one to the first, so that what stands in front of each is still what it was. -/
theorem weave_induction {F : List Char → Prop} (h : Rewording s w)
    (halone : ∀ a ∈ fronts s P cs, ∃ b, P ++ weave s cs x = a ++ (s ++ b) ∧ Alone a b)
    (hstep : ∀ a ∈ fronts s P cs, ∀ b, Alone a b → F (a ++ (s ++ b)) → F (a ++ (w ++ b)))
    (hF : F (P ++ weave s cs x)) : F (P ++ weave w cs x) := by
  induction cs generalizing P with
  | nil => exact hF
  | cons c cs ih =>
    have hcode : ∀ v, P ++ weave v (c :: cs) x = (P ++ c) ++ (v ++ weave v cs x) := fun v => by
      rw [weave, List.append_assoc]
    have hrest := @ih (P ++ (c ++ s)) (fun a ha => by
      simpa only [weave, List.append_assoc] using halone a (List.mem_cons_of_mem _ ha))
      (fun a ha => hstep a (List.mem_cons_of_mem _ ha))
      (by simpa only [weave, List.append_assoc] using hF)
    obtain ⟨b, hb, hfirst⟩ := halone (P ++ c) List.mem_cons_self
    rw [hcode] at hb ⊢
    obtain rfl := List.append_cancel_left (List.append_cancel_left hb)
    exact hstep (P ++ c) List.mem_cons_self _ (hfirst.weave h)
      (by simpa only [List.append_assoc] using hrest)

/-! ## The words -/

section Words

variable {s : String}

/-- A name that is no reserved word is none of those in front of a name that is declared. -/
theorem eqIgnoreCase_of_not_isReserved (hfree : isReserved s = false) :
    ∀ k ∈ ["function", "const", "case"], eqIgnoreCase s.toList k.toList = false := by
  intro k hk
  have hkeywords : ∀ k ∈ ["function", "const", "case"],
      k.toList.map Char.toLower = k.toList ∧ k ∈ reservedWords := by decide
  obtain ⟨hlower, hreserved⟩ := hkeywords k hk
  rw [eqIgnoreCase, hlower, beq_eq_false_iff_ne]
  intro heq
  rw [isReserved_of_toLower heq hreserved] at hfree
  cases hfree

theorem noClassWord_of_isIdent (hs : IsIdent s.toList) (hlong : 'ſ' ∉ s.toList)
    (hfree : isReserved s = false) :
    NoClassWord s.toList := by
  rintro t k hsplit hfront ⟨w, hw, hfold⟩
  have hwords : ∀ w ∈ classWords, 'k' ∉ w.toList ∧ w ∈ reservedWords := by decide
  obtain rfl : t = [] := by
    by_contra hne
    rw [List.getLast?_eq_some_getLast hne, Option.any_some,
      hs.word _ (by rw [hsplit]; exact List.mem_append_left k (List.getLast_mem hne))] at hfront
    cases hfront
  rw [List.nil_append] at hsplit
  rw [isReserved_of_folded (hsplit ▸ hfold) (.inl hlong) (hwords w hw).1 (hwords w hw).2] at hfree
  cases hfree

theorem shortName_fullyQualified (q : String) : shortName (fullyQualified q) = shortName q := by
  rw [← shortName_stripLeading q, shortName, shortName, toList_fullyQualified, List.reverse_cons,
    List.takeWhile_append]
  split
  · rename_i hlength
    rw [(List.takeWhile_prefix _).eq_of_length hlength]
    simp
  · rfl

theorem noClassWord_fullyQualified (hq : IsName (stripLeading q).toList)
    (hfree : isReserved (shortName q) = false)
    (hclass : (shortName q).toList.map foldLetter ≠ "class".toList) :
    NoClassWord (fullyQualified q).toList := by
  rintro t k hsplit hfront ⟨w, hw, hfold⟩
  have hpath : IsPath (fullyQualified q).toList := .inr ⟨_, toList_fullyQualified q, hq⟩
  have hk : '\\' ∉ k := fun hmem =>
    absurd ((isIdent_of_classWords ⟨w, hw, hfold⟩).word _ hmem) (by decide)
  -- in front of the keyword stands a backslash
  have hne : t ≠ [] := by
    rintro rfl
    rw [toList_fullyQualified, List.nil_append] at hsplit
    exact hk (hsplit ▸ List.mem_cons_self)
  obtain ⟨t, y, rfl⟩ := (List.eq_nil_or_concat' t).resolve_left hne
  obtain rfl : y = '\\' := by
    refine (hpath.mem y (by rw [hsplit]; simp)).resolve_left fun hword => ?_
    rw [List.getLast?_append_of_ne_nil _ (List.cons_ne_nil y []), List.getLast?_singleton,
      Option.any_some, hword] at hfront
    cases hfront
  have hshort : shortName q = String.ofList k := by
    rw [← shortName_fullyQualified]
    exact shortName_of_append (hsplit.trans (List.append_assoc _ _ _)) hk
  have hwords : ∀ w ∈ classWords, w = "class" ∨ 's' ∉ w.toList ∧ 'k' ∉ w.toList ∧
      w ∈ reservedWords := by
    decide
  rw [← String.toList_ofList (l := k), ← hshort] at hfold
  rcases hwords w hw with rfl | ⟨hs, hk, hreserved⟩
  · exact hclass hfold
  · rw [isReserved_of_folded hfold (.inr hs) hk hreserved] at hfree
    cases hfree

end Words

/-! ## Places before the expansion -/

section Before

/-- Both codes are empty, or the one ends with the new word where the other ends with the old one.
-/
inductive Replaced (s w : List Char) : List Char → List Char → Prop where
  | nil : Replaced s w [] []
  | word {Y Y₀ : List Char} : breaks Y = breaks Y₀ → (∀ y ∈ Y₀.getLast?, isIdentChar y = false) →
      Replaced s w (Y ++ w) (Y₀ ++ s)

theorem Replaced.breaks_eq (hP : Replaced s w P P₀) (h : Rewording s w) : breaks P = breaks P₀ := by
  have hs : breaks s = 0 := breaks_eq_zero fun hmem => absurd (h.ident _ hmem) (by decide)
  have hw : breaks w = 0 := breaks_eq_zero fun hmem => absurd (h.parts _ hmem) (by decide)
  cases hP with
  | nil => rfl
  | word hbreaks => rw [breaks_append, breaks_append, hs, hw, hbreaks]

/-- A place of the old word stands in front of a new word, with something between them, or behind
it. -/
theorem Rewording.place_cases (h : Rewording s w) {c R : List Char}
    (hcode : g ++ (s ++ b) = c ++ (w ++ R))
    (hbefore : ∀ y ∈ g.getLast?, isIdentChar y = false ∧ y ≠ '\\') (hafter : b.head? ≠ some '\\') :
    (∃ t, t ≠ [] ∧ c = g ++ (s ++ t) ∧ b = t ++ (w ++ R)) ∨ ∃ t, g = c ++ (w ++ t) := by
  obtain ⟨r, hr⟩ := h.absolute
  rcases append_eq_append_cases hcode with ⟨t, rfl, hsplit⟩ | ⟨y, t, rfl, hsplit⟩
  · rcases append_eq_append_cases hsplit with ⟨t, rfl, rfl⟩ | ⟨y, z, hs, hw⟩
    · refine .inl ⟨t, ?_, rfl, rfl⟩
      rintro rfl
      exact hafter (by rw [List.nil_append, hr]; rfl)
    · -- the old word would go on with a backslash
      rw [hr] at hw
      have hident := h.ident y (by rw [hs]; simp)
      rw [← (List.cons.inj hw).1] at hident
      exact absurd hident (by decide)
  · rcases append_eq_append_cases hsplit.symm with ⟨z, hw, -⟩ | ⟨z, t', ht, -⟩
    · -- in front of the place would stand a part of the new word
      have hne := List.cons_ne_nil y t
      obtain ⟨hident, hslash⟩ := hbefore _ (by
        rw [List.getLast?_append_of_ne_nil _ hne]
        exact List.getLast?_eq_some_getLast hne)
      rcases h.parts _ (by rw [hw]; exact List.mem_append_left z (List.getLast_mem hne)) with hc |
          hc
      · rw [hc] at hident
        cases hident
      · exact absurd hc hslash
    · exact .inr ⟨_, by rw [ht]⟩

/-- **A place outside of the new words is a place before they were put in**, with the same
characters beside it. -/
theorem exists_before_expansion (h : Rewording s w) (hP : Replaced s w P P₀)
    (hhead : P ≠ [] → ∀ y ∈ (weave s cs x).head?, isIdentChar y = false)
    (halone : ∀ a ∈ fronts s P₀ cs, ∃ b, P₀ ++ weave s cs x = a ++ (s ++ b) ∧ Alone a b)
    (hcode : P ++ weave w cs x = a ++ (s ++ b)) (hle : P.length ≤ a.length)
    (hbefore : ∀ y ∈ a.getLast?, isIdentChar y = false ∧ y ≠ '\\') (hafter : b.head? ≠ some '\\') :
    ∃ A A₀ g b₀, a = A ++ g ∧ P₀ ++ weave s cs x = (A₀ ++ g) ++ (s ++ b₀) ∧ Replaced s w A A₀ ∧
      b₀.head? = b.head? ∧
      P₀.length ≤ (A₀ ++ g).length ∧ A₀ ++ g ∉ fronts s P₀ cs ∧
      (A ≠ [] → ∀ y ∈ g.head?, isIdentChar y = false) := by
  have hpos := List.length_pos_iff.mpr h.ne_nil
  induction cs generalizing P P₀ with
  | nil =>
    obtain ⟨g, rfl⟩ := List.prefix_of_prefix_length_le ⟨_, rfl⟩ ⟨_, hcode.symm⟩ hle
    rw [weave, List.append_assoc] at hcode
    obtain rfl := List.append_cancel_left hcode
    refine ⟨P, P₀, g, b, rfl, (List.append_assoc _ _ _).symm, hP,
      rfl, by simp, by simp [fronts], fun hne y hy => ?_⟩
    exact hhead hne y (by rw [weave, List.head?_append, Option.mem_def.mp hy]; rfl)
  | cons c cs ih =>
    obtain ⟨g, rfl⟩ := List.prefix_of_prefix_length_le ⟨_, rfl⟩ ⟨_, hcode.symm⟩ hle
    have hrest : g ++ (s ++ b) = c ++ (w ++ weave w cs x) := by
      rw [List.append_assoc] at hcode
      exact (List.append_cancel_left hcode).symm
    have hlast : ∀ y ∈ g.getLast?, isIdentChar y = false ∧ y ≠ '\\' := fun y hy =>
      hbefore y (by rw [List.getLast?_append, Option.mem_def.mp hy]; rfl)
    rcases h.place_cases hrest hlast hafter with ⟨t, hne, rfl, rfl⟩ | ⟨t, rfl⟩
    · -- the place is in the piece `c`
      refine ⟨P, P₀, g, t ++ (s ++ weave s cs x),
        rfl, by simp only [weave, List.append_assoc], hP, ?_, by simp, ?_, fun hne y hy => ?_⟩
      · rw [List.head?_append_of_ne_nil _ hne, List.head?_append_of_ne_nil _ hne]
      · have hlater := (spaced_fronts s (P₀ ++ (g ++ (s ++ t) ++ s)) cs).1
        rw [fronts, List.mem_cons]
        rintro (heq | hmem)
        · have := congrArg List.length heq
          simp only [List.length_append] at this
          omega
        · have := hlater _ hmem
          simp only [List.length_append] at this
          omega
      · exact hhead hne y
          (by simp only [weave, List.append_assoc, List.head?_append, Option.mem_def.mp hy]; rfl)
    · -- the place is behind the new word
      obtain ⟨b', hb', hfirst⟩ := halone (P₀ ++ c) List.mem_cons_self
      rw [weave, ← List.append_assoc] at hb'
      obtain rfl := List.append_cancel_left (List.append_cancel_left hb')
      have hword : Replaced s w (P ++ (c ++ w)) (P₀ ++ (c ++ s)) := by
        rw [← List.append_assoc, ← List.append_assoc]
        exact .word (by rw [breaks_append, breaks_append, hP.breaks_eq h]) hfirst.before
      obtain ⟨A, A₀, g, b₀, ha, hcode₀, hA, hb₀, hle₀, hfree, hg⟩ := ih hword (fun _ y hy =>
        (hfirst.after y hy).1)
        (fun a ha => by simpa only [weave,
          List.append_assoc] using halone a (List.mem_cons_of_mem _ ha))
        (by simpa only [weave, List.append_assoc] using hcode)
        (by simp only [List.length_append]; omega)
      refine ⟨A, A₀, g, b₀,
        ha, by simpa only [weave, List.append_assoc] using hcode₀, hA, hb₀, ?_, ?_, hg⟩
      · simp only [List.length_append] at hle₀ ⊢
        omega
      · rw [fronts, List.mem_cons]
        rintro (heq | hmem)
        · have := congrArg List.length heq
          simp only [List.length_append] at this hle₀
          omega
        · exact hfree hmem

variable {A₀ : List Char}

/-- Two characters of which the second belongs to no word stand in front of both places or of
neither. -/
theorem Replaced.take_two (hA : Replaced s w A A₀) (h : Rewording s w) {y z : Char}
    (hz : isIdentChar z = false) (hg : A ≠ [] → g ≠ [])
    (hnot : ((A ++ g).reverse.take 2 == [y, z]) = false) :
    ((A₀ ++ g).reverse.take 2 == [y, z]) = false := by
  cases hA with
  | nil => exact hnot
  | @word Y Y₀ =>
    obtain ⟨e, he, hident⟩ := h.ends
    obtain ⟨s, rfl⟩ := List.getLast?_eq_some_iff.mp he
    have hne : e ≠ z := by
      rintro rfl
      rw [hident] at hz
      cases hz
    have hg := hg (by obtain ⟨r, hr⟩ := h.absolute; simp [hr])
    rcases hrev : g.reverse with _ | ⟨c, _ | ⟨c', g'⟩⟩
    · exact absurd (List.reverse_eq_nil_iff.mp hrev) hg
    · simp [List.reverse_append, hrev, hne]
    · simp only [List.reverse_append, hrev] at hnot ⊢
      exact hnot

/-- The word in front of the place is the same one, or it is the one that is replaced. -/
theorem Replaced.endsInKeyword (hA : Replaced s w A A₀) (h : Rewording s w) (hs : IsIdent s)
    {keywords : List String} (hg : A ≠ [] → ∀ y ∈ g.head?, isIdentChar y = false)
    (hfree : ∀ k ∈ keywords, eqIgnoreCase s k.toList = false)
    (hnot : endsInKeyword (A ++ g).reverse keywords = false) :
    UseImports.endsInKeyword (A₀ ++ g).reverse keywords = false := by
  cases hA with
  | nil => exact hnot
  | @word Y Y₀ hbreaks hlast =>
    have hg := hg (by obtain ⟨r, hr⟩ := h.absolute; simp [hr])
    unfold UseImports.endsInKeyword at hnot ⊢
    rw [List.reverse_append] at hnot ⊢
    by_cases hvisible : ∃ c ∈ g.reverse, isBlank c = false
    · -- the word stands behind the one that is replaced
      have hstop : ∃ c ∈ g.reverse.dropWhile isBlank, isIdentChar c = false := by
        have hne : g.reverse.dropWhile isBlank ≠ [] := fun hnil => by
          obtain ⟨c, hc, hblank⟩ := hvisible
          rw [List.dropWhile_eq_nil_iff.mp hnil c hc] at hblank
          cases hblank
        obtain ⟨t, ht⟩ := List.dropWhile_suffix isBlank (l := g.reverse)
        have hhead : g.head? = (g.reverse.dropWhile isBlank).getLast? := by
          rw [← List.getLast?_append_of_ne_nil t hne, ht, List.getLast?_reverse]
        exact ⟨_, List.getLast_mem hne, hg _ (hhead ▸ List.getLast?_eq_some_getLast hne)⟩
      rw [dropWhile_append_of_mem hvisible, takeWhile_append_of_mem hstop] at hnot ⊢
      exact hnot
    · have hblank : ∀ c ∈ g.reverse, isBlank c = true := fun c hc => by
        by_contra hc'
        exact hvisible ⟨c, hc, by simpa using hc'⟩
      have hreverse : (Y₀ ++ s).reverse.dropWhile isBlank = s.reverse ++ Y₀.reverse := by
        rw [List.reverse_append]
        refine dropWhile_of_head fun c hc => ?_
        rw [List.head?_append_of_ne_nil _ (by simpa using h.ne_nil)] at hc
        exact isBlank_of_isWordChar (hs.word c (List.mem_reverse.mp (List.mem_of_mem_head? hc)))
      have hword : (s.reverse ++ Y₀.reverse).takeWhile isIdentChar = s.reverse := by
        rw [List.takeWhile_append_of_pos fun c hc => h.ident c (List.mem_reverse.mp hc)]
        cases hY : Y₀.reverse with
        | nil => simp
        | cons y Y =>
          have hy := hlast y (by rw [← List.head?_reverse, hY]; rfl)
          rw [List.takeWhile_cons_of_neg (by simp [hy]), List.append_nil]
      rw [List.dropWhile_append_of_pos hblank, hreverse, hword, List.reverse_reverse,
        List.any_eq_false]
      exact fun k hk => by rw [hfree k hk]; exact Bool.false_ne_true

/-- The character in front of the place is the same one. -/
theorem Replaced.getLast?_eq (hA : Replaced s w A A₀) (h : Rewording s w) (hg : A ≠ [] → g ≠ []) :
    (A₀ ++ g).getLast? = (A ++ g).getLast? := by
  cases hA with
  | nil => rfl
  | word =>
    have hg := hg (by obtain ⟨r, hr⟩ := h.absolute; simp [hr])
    rw [List.getLast?_append_of_ne_nil _ hg, List.getLast?_append_of_ne_nil _ hg]

theorem Replaced.ends (hA : Replaced s w A A₀) (hw : FullName w) (hne : A ≠ []) :
    ∃ y ∈ A.getLast?, isIdentChar y = true := by
  cases hA with
  | nil => exact absurd rfl hne
  | word =>
    rw [List.getLast?_append_of_ne_nil _ hw.ne_nil]
    exact hw.ends

/-- **A reference that can be expanded afterwards could be expanded before**, but for its line. -/
theorem Replaced.expandable (hA : Replaced s w A A₀) (h : Rewording s w) (hw : FullName w)
    (hs : IsIdent s) (hfree : ∀ k ∈ ["function", "const", "case"], eqIgnoreCase s k.toList = false)
    (hg : A ≠ [] → ∀ y ∈ g.head?, isIdentChar y = false) {b₀ : List Char} (hb : b₀.head? = b.head?)
    {doc' : Document} {skipped skipped' : List Nat} (href : Expandable doc' skipped' (A ++ g) b)
    (hline : doc.lineOf (byteLength (A₀ ++ g)) ∉ skipped) :
    Expandable doc skipped (A₀ ++ g) b₀ := by
  have hne : A ≠ [] → g ≠ [] := by
    rintro hA' rfl
    obtain ⟨y, hy, hident⟩ := hA.ends hw hA'
    rw [href.before y (by rwa [List.append_nil])] at hident
    cases hident
  have hlast := hA.getLast?_eq h hne
  exact {
    before := hlast ▸ href.before
    after := hb ▸ href.after
    line := hline
    first := hlast ▸ href.first
    arrow := hA.take_two h (by decide) hne href.arrow
    colons := hA.take_two h (by decide) hne href.colons
    undeclared := hA.endsInKeyword h hs hg hfree href.undeclared }

end Before

/-! ## Expanding twice -/

theorem Alone.amid (h : Alone a b) (hslash : ∀ y ∈ a.getLast?, y ≠ '\\') (hu : IsPath u) :
    Amid a u b := by
  have hpath : ∀ {y : Char}, isIdentChar y = false → y ≠ '\\' → isPathChar y = false :=
    fun {y} hident hne => by
    rw [isPathChar, Bool.or_eq_false_iff, beq_eq_false_iff_ne]
    refine ⟨?_, hne⟩
    by_contra hword
    rw [isIdentChar_of_isWordChar (by simpa using hword)] at hident
    cases hident
  refine ⟨hu, fun y hy => hpath (h.before y hy) (hslash y hy), ?_⟩
  rw [Option.any_eq_false]
  exact fun y hy => by simp [hpath (h.after y hy).1 (h.after y hy).2]

section Twice

variable {s : String} {gs : List (List Char)} {X : List Char} (h : Expanded doc s q gs cs X x)
    (hview : codeView doc.text = .ok doc.code) (hs : IsIdent s.toList)
    (hq : IsName (stripLeading q).toList)
include h hview hs

/-- Around a reference stands no part of a name, and it stands on no line of a declaration. -/
theorem Expanded.amid (hu : IsPath u) (ha : a ∈ fronts s.toList [] cs) (hab : Alone a b) :
    Amid a s.toList b ∧ Amid a u b ∧ breaks a ∉ declarationLines doc := by
  obtain ⟨b', hcode, href⟩ := exists_of_mem_expandable (h.places ▸ ha)
  have hslash : ∀ y ∈ a.getLast?, y ≠ '\\' := fun y hy => (href.first y hy).1
  refine ⟨hab.amid hslash (.inl hs.isName), hab.amid hslash hu, ?_⟩
  rw [← lineOf_of_split (lineOf_codeView hview) hcode]
  exact href.line

omit hs in
theorem Expanded.plain (hlong : 'ſ' ∉ doc.text) (ha : a ∈ fronts s.toList [] cs) :
    'ſ' ∉ s.toList := by
  intro hmem
  obtain ⟨b, hcode, -⟩ := h.alone ha
  refine hlong (mem_of_visible (UseImports.codeView_eq doc.text ▸ hview) ?_ (by decide))
  rw [hcode]
  exact List.mem_append_right a (List.mem_append_left b hmem)

variable (hview' : codeView (weave (fullyQualified q).toList gs X) =
    .ok (weave (fullyQualified q).toList cs x))
  (hlong : 'ſ' ∉ doc.text) (hsr : isReserved s = false) (hqr : isReserved (shortName q) = false)
  (hclass : (shortName q).toList.map foldLetter ≠ "class".toList)
include hq hview' hlong hsr hqr hclass

/-- **The lines on which nothing is expanded stay so.** -/
theorem Expanded.declarationLines_subset : declarationLines doc ⊆
    declarationLines ⟨weave (fullyQualified q).toList gs X,
      weave (fullyQualified q).toList cs x⟩ := by
  intro n hn
  have hword := rewording_fullyQualified hs hq
  have hname : IsPath (fullyQualified q).toList := .inr ⟨_, toList_fullyQualified q, hq⟩
  have hlines := lineOf_codeView hview
  have halone : ∀ a ∈ fronts s.toList [] cs, ∃ b, [] ++ weave s.toList cs x =
      a ++ (s.toList ++ b) ∧ Alone a b :=
    h.code ▸ fun _ => h.alone
  have hfree : ∀ a ∈ fronts s.toList [] cs, s.toList.map foldLetter ≠ "namespace".toList :=
    fun a ha hfold => by
    rw [isReserved_of_folded hfold (.inl (h.plain hview hlong ha)) (by decide) (by decide)] at hsr
    cases hsr
  have hfree' : (fullyQualified q).toList.map foldLetter ≠ "namespace".toList := fun hfold => by
    rw [toList_fullyQualified, List.map_cons] at hfold
    exact absurd (List.cons.inj hfold).1 (by decide)
  have hkind := (mem_declarationLines_iff hlines).mp hn
  rw [h.code] at hkind
  refine (mem_declarationLines_iff (lineOf_codeView hview')).mpr ?_
  rcases hkind with ⟨t, m, ht, hline, hle, hle'⟩ | hline | hline
  · refine .inl ⟨t, m, ht,
      weave_induction (F := (StatementLine · t m)) hword halone (fun a ha b hab hline' => ?_) hline,
      hle, hle'⟩
    obtain ⟨hu, hv, hother⟩ := h.amid hview hs hname ha hab
    refine hline'.reword (fun hin => hother ?_) hu hv hs (hfree a ha)
    exact (mem_declarationLines_iff hlines).mpr (.inl ⟨t, m, ht, h.code ▸ hline, hin⟩)
  · refine .inr (.inl (weave_induction (F := (NamespaceLine · n)) hword halone
      (fun a ha b hab hline' => ?_) hline))
    obtain ⟨hu, hv, -⟩ := h.amid hview hs hname ha hab
    exact hline'.reword hu hv (hfree a ha) hfree'
  · refine .inr (.inr (weave_induction (F := (ClassLine · n)) hword halone (fun a ha b hab hline' =>
      ?_) hline))
    obtain ⟨hu, hv, hother⟩ := h.amid hview hs hname ha hab
    exact hline'.reword (fun heq =>
      hother (heq ▸ hn)) hu hv (noClassWord_of_isIdent hs (h.plain hview hlong ha) hsr)
      (noClassWord_fullyQualified hq hqr hclass)

/-- After expanding there is nothing to expand. -/
theorem Expanded.expandable_eq_nil :
    expandable ⟨weave (fullyQualified q).toList gs X, weave (fullyQualified q).toList cs x⟩ s =
      [] := by
  refine List.eq_nil_iff_forall_not_mem.mpr fun a ha => ?_
  have hword := rewording_fullyQualified hs hq
  have halone : ∀ a ∈ fronts s.toList [] cs, ∃ b, [] ++ weave s.toList cs x =
      a ++ (s.toList ++ b) ∧ Alone a b :=
    h.code ▸ fun _ => h.alone
  obtain ⟨b, hcode, href⟩ := exists_of_mem_expandable ha
  obtain ⟨A, A₀, g, b₀, rfl, hcode₀, hA, hb, -, hnot, hg⟩ := exists_before_expansion hword .nil
    (fun hne => absurd rfl hne)
    halone hcode (Nat.zero_le _) (fun y hy => ⟨href.before y hy, (href.first y hy).1⟩) fun hslash =>
      (href.after _ hslash).2 rfl
  rw [List.nil_append, ← h.code] at hcode₀
  rw [h.places] at hnot
  refine hnot (mem_expandable hs hcode₀ (hA.expandable hword (fullName_fullyQualified hq) hs
    (eqIgnoreCase_of_not_isReserved hsr) hg hb href ?_))
  -- the line is the same one, and it was none of a declaration
  have hline := href.line
  rw [lineOf_of_split (lineOf_codeView hview') hcode, breaks_append, hA.breaks_eq hword,
    ← breaks_append] at hline
  rw [lineOf_of_split (lineOf_codeView hview) hcode₀]
  exact fun hmem => hline (h.declarationLines_subset hview hs hq hview' hlong hsr hqr hclass hmem)

end Twice

/-- **Expanding once more changes nothing**, in a text without heredocs and without a long s, if the
short name is no reserved word and the last segment of the full one is none either and is not read
as `class`. -/
theorem expansion_idempotent {text s q : String} (hs : IsIdent s.toList)
    (hq : IsName (stripLeading q).toList) (hno : NoHeredoc text.toList) (hlong : 'ſ' ∉ text.toList)
    (hsr : isReserved s = false) (hqr : isReserved (shortName q) = false)
    (hclass : (shortName q).toList.map foldLetter ≠ "class".toList) :
    ∃ doc text' doc', Document.ofString text = .ok doc ∧
      applyEdits text (expandReferences doc s q) = .ok text' ∧
      Document.ofString text' = .ok doc' ∧ expandReferences doc' s q = [] := by
  obtain ⟨code, hview⟩ := exists_codeView hno
  obtain ⟨gs, cs, X, x, h⟩ := @exists_expanded s ⟨text.toList, code⟩ hview hs q
  have htext := h.applyEdits_text hs
  rw [String.ofList_toList] at htext
  have hview' := h.codeView_eq hview hs hq fun e _ => by simp [hno.heredocNames_eq]
  refine ⟨⟨text.toList, code⟩, _, ⟨_, _⟩, map_ok_iff.mpr ⟨code, hview, rfl⟩, htext,
    map_ok_iff.mpr ⟨_, by rw [String.toList_ofList]; exact hview', rfl⟩, ?_⟩
  rw [expandReferences_eq _ hs.ne_nil, String.toList_ofList,
    h.expandable_eq_nil hview hs hq hview' hlong hsr hqr hclass]
  rfl

/-- A text with a namespace, an import, a class and references, some of which are left alone. -/
def declaringText : String :=
  "<?php\nnamespace App;\nuse Lib\\Foo;\nclass Bar extends Foo {}\nnew Foo; // Foo\n$Foo = Foo::make('Foo')->Foo;\n"

/-- Its code view. -/
def declaringCode : String :=
  "     \nnamespace App;\nuse Lib\\Foo;\nclass Bar extends Foo {}\nnew Foo;       \n$Foo = Foo::make('   ')->Foo;\n"

theorem expansion_idempotent_declaring :
    ∃ doc text' doc', Document.ofString declaringText = .ok doc ∧
    declarationLines doc = [2, 1, 3] ∧
    (expandReferences doc "Foo" "Lib\\Foo").map (·.span.start) = [82, 63] ∧
    applyEdits declaringText (expandReferences doc "Foo" "Lib\\Foo") = .ok text' ∧
    Document.ofString text' = .ok doc' ∧
    expandReferences doc' "Foo" "Lib\\Foo" = [] := by
  have hdoc : Document.ofString declaringText =
      .ok ⟨declaringText.toList, declaringCode.toList⟩ := by
    decide +kernel
  have hno : NoHeredoc declaringText.toList := by
    unfold NoHeredoc
    decide +kernel
  obtain ⟨doc, text', doc', hdoc', htext, hdoc'',
      hnone⟩ := @expansion_idempotent declaringText "Foo" "Lib\\Foo"
    ⟨by decide, by decide⟩ ⟨by decide +kernel, by decide +kernel⟩ hno (by decide +kernel)
      (by decide) (by decide +kernel)
    (by decide +kernel)
  obtain rfl := Except.ok.inj (hdoc.symm.trans hdoc')
  exact ⟨_, text', doc', hdoc, by decide +kernel, by decide +kernel, htext, hdoc'', hnone⟩

/-! ## A name that is read as a keyword -/

/-- A reference in front of a class. -/
def precedingText : String :=
  "<?php\nFoo\nclass Bar extends Foo {}\n"

/-- Its code view. -/
def precedingCode : String :=
  "     \nFoo\nclass Bar extends Foo {}\n"

/-- The full name takes the keyword behind it for the name of a class. The line of the class is none
of a declaration any more, and the reference on it is expanded too. -/
theorem expansion_hides_class : ∃ doc text' doc', Document.ofString precedingText = .ok doc ∧
    IsIdent "Foo".toList ∧ IsName (stripLeading "Lib\\claſs").toList ∧
    NoHeredoc precedingText.toList ∧
    'ſ' ∉ precedingText.toList ∧ (∀ word ∈ ["Foo", "Lib", "claſs"], isReserved word = false) ∧
    applyEdits precedingText (expandReferences doc "Foo" "Lib\\claſs") = .ok text' ∧
    Document.ofString text' = .ok doc' ∧
    expandReferences doc' "Foo" "Lib\\claſs" ≠ [] := by
  have hdoc : Document.ofString precedingText =
      .ok ⟨precedingText.toList, precedingCode.toList⟩ := by
    decide +kernel
  have hs : IsIdent "Foo".toList := ⟨by decide, by decide⟩
  have hno : NoHeredoc precedingText.toList := by
    unfold NoHeredoc
    decide +kernel
  -- the text in pieces around the reference
  have htext : precedingText =
      String.ofList
      (weave "Foo".toList ["<?php\n".toList] "\nclass Bar extends Foo {}\n".toList) := by
    decide +kernel
  have hedits : expandReferences ⟨precedingText.toList, precedingCode.toList⟩ "Foo" "Lib\\claſs" =
      (wordEdits "Foo".toList "\\Lib\\claſs"
        (fronts "Foo".toList [] ["<?php\n".toList])).reverse := by decide +kernel
  have happlied :=
    applyEdits_weave hs.ne_nil "\\Lib\\claſs"
    ["<?php\n".toList] "\nclass Bar extends Foo {}\n".toList
  rw [← hedits, ← htext] at happlied
  exact ⟨_, _, ⟨"<?php\n\\Lib\\claſs\nclass Bar extends Foo {}\n".toList,
      "     \n\\Lib\\claſs\nclass Bar extends Foo {}\n".toList⟩, hdoc, hs,
        ⟨by decide +kernel, by decide +kernel⟩, hno,
    by decide +kernel, by decide +kernel, happlied, by decide +kernel, by decide +kernel⟩

end UseImports
