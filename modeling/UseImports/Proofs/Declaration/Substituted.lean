import UseImports.Proofs.Declaration.Found

/-!
# One name in the place of another

In a code one name is replaced by another, where it stands alone. What is not inside of the name
stands where it stood, in front of the name or behind it, and a namespace clause whose name is the
one that is replaced has the other one then. So the same statements begin with a namespace, and the
same braces are those of namespaces. Class keywords are found as before, since neither name ends
with one; only a class whose name is the word itself can be lost.

* `Amid`: a name that stands alone in the code.
* `Moved`: a place outside of the name, before and after.
* `NamespaceAt.moved`, `ClassAt.moved`: **clauses are read as before.**
* `NamespaceBegins.first_moved`: the namespace of the document stays the same.
* `importLevel_moved`: **import level is kept** behind the name.
* `ClassFound.moved`: class keywords are found as before.
-/

namespace UseImports

open Cursor

variable {a B b g g' k name P P' R t u v x : List Char} {n : Nat} {bs bs' : List Bool}

/-! ## Cutting a text at a name -/

section Cut

variable {p : Char → Bool} {U V : List Char}

/-- A run of characters ends in front of the end of a piece that does not end with one of them. -/
theorem exists_behind_run (h : a ++ x = U ++ V) (hne : a ≠ []) (hU : ∀ c ∈ U, p c = true)
    (hlast : ∀ y ∈ a.getLast?, p y = false) : ∃ y t, a = U ++ y :: t ∧ V = y :: t ++ x := by
  rcases append_eq_append_cases h with ⟨t, rfl, -⟩ | hbehind
  · have hmem := List.getLast_mem hne
    have hy := hlast _ (List.getLast?_eq_some_getLast hne)
    rw [hU _ (List.mem_append_left t hmem)] at hy
    cases hy
  · exact hbehind

/-- A run of characters does not go on behind a piece where another character follows. -/
theorem exists_behind_gap (h : a ++ x = U ++ V) (hU : ∀ c ∈ U, p c = true) {y : Char}
    (hy : y ∈ x.head?) (hhead : p y = false) : ∃ t, a = U ++ t ∧ V = t ++ x := by
  rcases append_eq_append_cases h with ⟨t, rfl, hx⟩ | ⟨y, t, ha, hV⟩
  · cases t with
    | nil => exact ⟨[], by simp, by simpa using hx.symm⟩
    | cons z t =>
      rw [hx] at hy
      obtain rfl : z = y := Option.some.inj hy
      rw [hU z (by simp)] at hhead
      cases hhead
  · exact ⟨y :: t, ha, hV⟩

end Cut

/-- A character of a name with its backslashes. -/
def isPathChar (c : Char) : Bool :=
  isWordChar c || c == '\\'

theorem isPathChar_of_isBlank {c : Char} (h : isBlank c = true) : isPathChar c = false := by
  rw [isPathChar, isWordChar_of_isBlank h, Bool.false_or, beq_eq_false_iff_ne]
  rintro rfl
  rw [isBlank_backslash] at h
  cases h

theorem IsPath.isPathChar (h : IsPath u) : ∀ c ∈ u, isPathChar c = true := fun c hc => by
  rcases h.mem c hc with hword | rfl
  · rw [UseImports.isPathChar, hword, Bool.true_or]
  · rfl

/-- A name that stands alone between two pieces of code. -/
structure Amid (a u b : List Char) : Prop where
  name : IsPath u
  before : ∀ y ∈ a.getLast?, isPathChar y = false
  after : b.head?.any isPathChar = false

/-! ## Places -/

/-- A place of a code with one name and the place of the code with the other name, in front of the
name or behind it. -/
inductive Moved (a u v b : List Char) : List Char → List Char → Prop where
  | front {P t : List Char} : a = P ++ t → t ≠ [] → Moved a u v b P P
  | back {B t : List Char} : b = B ++ t → Moved a u v b (a ++ (u ++ B)) (a ++ (v ++ B))

namespace Moved

variable {Q Q' : List Char}

theorem symm (h : Moved a u v b P P') : Moved a v u b P' P := by
  cases h with
  | front ha hne => exact .front ha hne
  | back hb => exact .back hb

/-- The order of places is kept. -/
theorem length_le (hu : u ≠ []) (h : Moved a u v b P P') (h' : Moved a u v b Q Q')
    (hle : P.length ≤ Q.length) :
    P'.length ≤ Q'.length := by
  have hpos := List.length_pos_iff.mpr hu
  cases h with
  | @front P t ha hne =>
    have hlength := congrArg List.length ha
    cases h' with
    | front => exact hle
    | back =>
      simp only [List.length_append] at hlength ⊢
      omega
  | @back B t hb =>
    cases h' with
    | @front Q t ha hne =>
      have hlength := congrArg List.length ha
      have := List.length_pos_iff.mpr hne
      simp only [List.length_append] at hlength hle
      omega
    | back =>
      simp only [List.length_append] at hle ⊢
      omega

theorem isPrefix (h : Moved a u v b P P') : P <+: a ++ (u ++ b) := by
  cases h with
  | @front P t ha hne => exact ⟨t ++ (u ++ b), by rw [ha, List.append_assoc]⟩
  | @back B t hb => exact ⟨t, by rw [hb]; simp only [List.append_assoc]⟩

theorem unique (hu : u ≠ []) (h : Moved a u v b P P') (h' : Moved a u v b P Q') : P' = Q' := by
  have hlength :=
    Nat.le_antisymm (h.length_le hu h' (Nat.le_refl _)) (h'.length_le hu h (Nat.le_refl _))
  exact (List.prefix_of_prefix_length_le h.symm.isPrefix h'.symm.isPrefix hlength.le).eq_of_length
    hlength

theorem breaks_eq (h : Moved a u v b P P') (hu : breaks u = 0) (hv : breaks v = 0) :
    breaks P = breaks P' := by
  cases h with
  | front => rfl
  | back => simp only [breaks_append, hu, hv]

/-- Behind the name stands something in front of a place where a word may begin. -/
theorem getLast?_back (hu : IsPath u) (hfront : (a ++ (u ++ B)).getLast?.any isWordChar = false) :
    B ≠ [] := by
  rintro rfl
  obtain ⟨y, hy, hword⟩ := hu.exists_last
  rw [List.append_nil, List.getLast?_append, Option.mem_def.mp hy] at hfront
  rw [show isWordChar y = false from hfront] at hword
  cases hword

theorem wordStart (h : Moved a u v b P P') (hu : IsPath u)
    (hfront : P.getLast?.any isWordChar = false) :
    P'.getLast?.any isWordChar = false := by
  cases h with
  | front => exact hfront
  | @back B t hb =>
    have hB := getLast?_back hu hfront
    rw [← List.append_assoc, List.getLast?_append_of_ne_nil _ hB] at hfront ⊢
    exact hfront

theorem colons (h : Moved a u v b P P') (hu : IsPath u) (hv : IsPath v)
    (hfront : P.getLast?.any isWordChar = false)
    (hcolons : (P.reverse.take 2 == [':', ':']) = false) :
    (P'.reverse.take 2 == [':', ':']) = false := by
  cases h with
  | front => exact hcolons
  | @back B t hb =>
    have hB := getLast?_back hu hfront
    obtain ⟨y, hy, hword⟩ := hv.exists_last
    obtain ⟨v, rfl⟩ := List.getLast?_eq_some_iff.mp hy
    have hne : y ≠ ':' := by
      rintro rfl
      revert hword
      decide
    rcases hrev : B.reverse with _ | ⟨c, _ | ⟨c', B'⟩⟩
    · exact absurd (List.reverse_eq_nil_iff.mp hrev) hB
    · simp [List.reverse_append, hrev, hne]
    · simp only [List.reverse_append, hrev] at hcolons ⊢
      exact hcolons

/-- A statement begins at a place behind the name as before. -/
theorem opens (h : Moved a u v b P P') (hu : IsPath u) (hopens : Opens P.reverse) :
    Opens P'.reverse := by
  cases h with
  | front => exact hopens
  | @back B t hb =>
    rw [← List.append_assoc] at hopens
    by_cases hvisible : ∃ c ∈ B, isSpace c = false
    · obtain ⟨y, c, ws, rfl, hc, hws⟩ := hopens.exists_stop hvisible
      have hstopped : Stopped (a ++ (v ++ (y ++ [c]))) :=
        stopped_iff.mpr ⟨a ++ (v ++ y), c, by simp, hc⟩
      have hspace : ∀ d ∈ ws.reverse, isSpace d = true := fun d hd => hws d (List.mem_reverse.mp hd)
      simpa using hstopped.opens.append_space hspace
    · -- with nothing but white space in between, a name would end in front of the statement
      have hspace : ∀ c ∈ B, isSpace c = true := fun c hc => by
        by_contra hc'
        exact hvisible ⟨c, hc, by simpa using hc'⟩
      obtain ⟨y, hy, hword⟩ := hu.exists_last
      rcases (hopens.of_space hspace).endsPlain y
          (by rw [List.getLast?_append, Option.mem_def.mp hy]; rfl) with hc | hc
      · rw [isWordChar_of_isBlank (isBlank_of_isSpace hc)] at hword
        cases hword
      · rw [halts_isWordChar y hc] at hword
        cases hword

end Moved

/-! ## Keywords -/

theorem Amid.of_append (h : Amid a u b) (hb : b = B ++ t) : Amid a u B :=
  ⟨h.name, h.before, any_head?_append (hb ▸ h.after)⟩

theorem Amid.exists_head (h : Amid a u b) :
    ∃ y ∈ (u ++ b).head?, isBlank y = false ∧ isPathChar y = true := by
  obtain ⟨y, u, rfl⟩ := List.exists_cons_of_ne_nil h.name.ne_nil
  exact ⟨y, rfl, h.name.not_isBlank y List.mem_cons_self, h.name.isPathChar y List.mem_cons_self⟩

theorem Amid.last (h : Amid a u b) {front : List Char} {y : Char} {t : List Char}
    (ha : a = front ++ y :: t) :
    ∀ z ∈ (y :: t).getLast?, isPathChar z = false := fun z hz =>
  h.before z (by rw [ha, List.getLast?_append_of_ne_nil _ (List.cons_ne_nil y t)]; exact hz)

/-- A keyword with white space behind it stands behind the name or in front of it, or it is the end
of the name. -/
theorem Amid.keyword_cases (h : Amid a u b) (htext : a ++ (u ++ b) = P ++ (k ++ (g ++ x)))
    (hk : IsIdent k) (hne : g ≠ []) (hg : ∀ c ∈ g, isBlank c = true) :
    (∃ B, P = a ++ (u ++ B) ∧ b = B ++ (k ++ (g ++ x))) ∨ (∃ t, u = t ++ k ∧ P = a ++ t) ∨
      ∃ t, a = P ++ (k ++ (g ++ t)) ∧ x = t ++ (u ++ b) := by
  have hpath : ∀ c ∈ k, isPathChar c = true :=
    fun c hc => by rw [isPathChar, hk.word c hc, Bool.true_or]
  rcases append_eq_append_cases htext with ⟨t, rfl, hrest⟩ | ⟨y, t, ha, hrest⟩
  · rcases append_eq_append_cases hrest with ⟨B, rfl, hb⟩ | ⟨y, z, hsplit, hinside⟩
    · exact .inl ⟨B, rfl, hb⟩
    · -- the name ends where the keyword does
      have hgap : (g ++ x).head?.any isPathChar = false := by
        obtain ⟨c, g, rfl⟩ := List.exists_cons_of_ne_nil hne
        simpa using isPathChar_of_isBlank (hg c List.mem_cons_self)
      have hname : ∀ c ∈ y :: z, isPathChar c = true := fun c hc =>
        h.name.isPathChar c (by rw [hsplit]; exact List.mem_append_right t hc)
      obtain ⟨rfl, -⟩ := eq_of_runs hinside.symm hname hpath h.after hgap
      exact .inr (.inl ⟨t, hsplit, rfl⟩)
  · obtain ⟨y₁, t₁, ht₁, hrest₁⟩ := exists_behind_run hrest.symm
      (List.cons_ne_nil y t) hpath (h.last ha)
    obtain ⟨y', hy', hblank, -⟩ := h.exists_head
    obtain ⟨t₂, ht₂, hrest₂⟩ := exists_behind_gap hrest₁.symm hg hy' hblank
    exact .inr (.inr ⟨t₂, by rw [ha, ht₁, ht₂], hrest₂⟩)

/-! ## Namespaces -/

section Namespaces

variable {e : Char}

/-- No namespace clause begins inside of the name, if the name is not the keyword: in front of it
would stand a word, or a backslash, behind which no statement begins. -/
theorem NamespaceAt.not_inside (h : NamespaceAt (a ++ (u ++ b)) P k g name g' e R)
    (hfree : u.map foldLetter ≠ "namespace".toList) (hedge : Opens P.reverse ∨ IsIdent u)
    (hu : IsPath u) (hsplit : u = t ++ k) : P ≠ a ++ t := by
  rintro rfl
  have hne : t ≠ [] := by
    rintro rfl
    rw [List.nil_append] at hsplit
    exact hfree (hsplit ▸ h.keyword)
  have hlast := List.getLast?_eq_some_getLast hne
  have hmem : t.getLast hne ∈ u := by
    rw [hsplit]
    exact List.mem_append_left k (List.getLast_mem hne)
  have hend : (a ++ t).getLast? = some (t.getLast hne) := by
    rw [List.getLast?_append_of_ne_nil _ hne, hlast]
  rcases hedge with hopens | hident
  · have hpath := hu.isPathChar _ hmem
    rcases hopens.endsPlain _ hend with hc | hc
    · rw [isPathChar_of_isBlank (isBlank_of_isSpace hc)] at hpath
      cases hpath
    · rcases isStop_cases hc with hc | hc | hc <;> (rw [hc] at hpath; revert hpath; decide)
  · have hfront := h.front
    rw [hend, Option.any_some, hident.word _ hmem] at hfront
    cases hfront

/-- **Namespace clauses are read as before**, with the other name if theirs is the one that is
replaced. -/
theorem NamespaceAt.moved (h : NamespaceAt (a ++ (u ++ b)) P k g name g' e R) (hu : Amid a u b)
    (hv : Amid a v b) (hinside : ∀ {t}, u = t ++ k → P ≠ a ++ t) :
    ∃ P' name' R', NamespaceAt (a ++ (v ++ b)) P' k g name' g' e R' ∧ Moved a u v b P P' ∧
      Moved a u v b (P ++ (k ++ (g ++ (name ++ g')))) (P' ++ (k ++ (g ++ (name' ++ g')))) := by
  have htext : a ++ (u ++ b) = P ++ (k ++ (g ++ (name ++ (g' ++ e :: R)))) := by simpa using h.text
  have hkeyword : IsIdent k := isIdent_of_folded (by decide) (by decide) h.keyword
  rcases hu.keyword_cases htext hkeyword h.gap_ne h.gap with ⟨B, rfl, hb⟩ |
      ⟨t, hsplit, hP⟩ | ⟨t, ha, hrest⟩
  · -- behind the name
    have hmoved : Moved a u v b (a ++ (u ++ B)) (a ++ (v ++ B)) := .back hb
    have hmoved' : Moved a u v b (a ++ (u ++ (B ++ (k ++ (g ++ (name ++ g'))))))
        (a ++ (v ++ (B ++ (k ++ (g ++ (name ++ g')))))) := .back (t := e :: R) (by simp [hb])
    refine ⟨a ++ (v ++ B), name, R,
      ⟨by simp [hb], hmoved.wordStart hu.name h.front, h.keyword, h.gap_ne, h.gap, h.path,
      h.behind, h.ends⟩, hmoved, ?_⟩
    simpa only [List.append_assoc] using hmoved'
  · exact absurd hP (hinside hsplit)
  have hfront : Moved a u v b P P := .front ha (List.append_ne_nil_of_left_ne_nil hkeyword.ne_nil _)
  have hpath := h.path.isPathChar
  have hends : isPathChar e = false := by rcases h.ends with rfl | rfl <;> decide
  have hbehind : (g' ++ e :: R).head?.any isPathChar = false := by
    cases hg : g' with
    | nil => exact hends
    | cons c g' => simpa using isPathChar_of_isBlank (h.behind c (hg ▸ List.mem_cons_self))
  cases t with
  | nil =>
    -- the name of the clause is the one that is replaced
    rw [List.nil_append] at hrest
    obtain ⟨rfl, hb⟩ := eq_of_runs hrest hpath hu.name.isPathChar hbehind hu.after
    refine ⟨P, v, R,
      ⟨by simp [ha, ← hb], h.front, h.keyword, h.gap_ne, h.gap, hv.name, h.behind, h.ends⟩, hfront,
      ?_⟩
    have hmoved : Moved a name v b (a ++ (name ++ g')) (a ++ (v ++ g')) := .back hb.symm
    rw [List.append_nil] at ha
    simpa only [ha, List.append_assoc] using hmoved
  | cons y t =>
    -- the clause ends in front of the name
    have ha' : a = (P ++ (k ++ g)) ++ y :: t := by rw [ha]; simp only [List.append_assoc]
    obtain ⟨y₁, t₁, ht₁, hrest₁⟩ :=
      exists_behind_run hrest.symm (List.cons_ne_nil y t) hpath (hu.last ha')
    obtain ⟨y', hy', hblank, hpath'⟩ := hu.exists_head
    obtain ⟨t₂, ht₂, hrest₂⟩ := exists_behind_gap hrest₁.symm h.behind hy' hblank
    cases t₂ with
    | nil =>
      -- the delimiter is no character of a name
      rw [List.nil_append] at hrest₂
      rw [← hrest₂] at hy'
      obtain rfl : e = y' := Option.some.inj hy'
      rw [hends] at hpath'
      cases hpath'
    | cons e' t₂ =>
      obtain ⟨rfl, rfl⟩ := List.cons.inj hrest₂
      refine ⟨P, name, t₂ ++ (v ++ b), ⟨?_, h.front, h.keyword, h.gap_ne, h.gap, h.path, h.behind,
        h.ends⟩, hfront, ?_⟩
      · simp [ha', ht₁, ht₂]
      · exact .front (t := e :: t₂) (by simp [ha', ht₁, ht₂]) (List.cons_ne_nil e t₂)

theorem NamespaceBegins.moved (h : NamespaceBegins (a ++ (u ++ b)) P) (hu : Amid a u b)
    (hv : Amid a v b) (hfree : u.map foldLetter ≠ "namespace".toList) :
    ∃ P', NamespaceBegins (a ++ (v ++ b)) P' ∧ Moved a u v b P P' := by
  obtain ⟨hopens, k, g, name, g', e, R, hat⟩ := h
  obtain ⟨P', name', R', hat', hmoved, -⟩ := hat.moved hu hv fun hsplit =>
    hat.not_inside hfree (.inl hopens) hu.name hsplit
  exact ⟨P', ⟨hmoved.opens hu.name hopens, k, g, name', g', e, R', hat'⟩, hmoved⟩

/-- **The first clause that begins a statement stays the first.** -/
theorem NamespaceBegins.first_moved (h : NamespaceBegins (a ++ (u ++ b)) P)
    (hfirst : ∀ Q, NamespaceBegins (a ++ (u ++ b)) Q → P.length ≤ Q.length) (hu : Amid a u b)
    (hv : Amid a v b) (hfree : u.map foldLetter ≠ "namespace".toList)
    (hfree' : v.map foldLetter ≠ "namespace".toList) :
    ∃ P', NamespaceBegins (a ++ (v ++ b)) P' ∧
      (∀ Q, NamespaceBegins (a ++ (v ++ b)) Q → P'.length ≤ Q.length) ∧
      Moved a u v b P P' := by
  obtain ⟨P', hP', hmoved⟩ := h.moved hu hv hfree
  refine ⟨P', hP', fun Q hQ => ?_, hmoved⟩
  obtain ⟨Q₀, hQ₀, hback⟩ := hQ.moved hv hu hfree'
  exact hmoved.length_le hu.name.ne_nil hback.symm (hfirst Q₀ hQ₀)

/-- More braces of namespaces leave more places at import level. -/
theorem openBraces_mono {f f' : Nat → Bool} {n' : Nat} {cs : List Char}
    (h : ∀ Q t, cs = Q ++ '{' :: t → f (n + byteLength Q) = true → f' (n' + byteLength Q) = true)
    (hbs : List.Forall₂ (fun x y => x = true → y = true) bs bs') :
    List.Forall₂ (fun x y =>
      x = true → y = true) (openBraces f n bs cs) (openBraces f' n' bs' cs) := by
  induction cs generalizing n n' bs bs' with
  | nil => exact hbs
  | cons c cs ih =>
    rw [openBraces_cons, openBraces_cons]
    refine ih (fun Q t hQ => ?_) ?_
    · have := h (c :: Q) t (by rw [hQ]; rfl)
      rwa [byteLength_cons, ← Nat.add_assoc, ← Nat.add_assoc] at this
    · unfold braceStep
      split
      · rename_i hc
        subst hc
        exact .cons (h [] cs rfl) hbs
      · split
        · cases hbs with
          | nil => exact .nil
          | cons _ hbs => exact hbs
        · exact hbs

theorem all_id_of_forall₂ (h : List.Forall₂ (fun x y => x = true → y = true) bs bs')
    (hall : bs.all id = true) : bs'.all id = true := by
  induction h with
  | nil => rfl
  | cons hxy _ ih =>
    simp only [List.all_cons, Bool.and_eq_true, id] at hall ⊢
    exact ⟨hxy hall.1, ih hall.2⟩

/-- **Import level is kept** where a word is replaced by a name: each brace of a namespace stays
one. -/
theorem importLevel_moved (hu : Amid a u b) (hv : Amid a v b) (hident : IsIdent u)
    (hfree : u.map foldLetter ≠ "namespace".toList)
    (hlevel : importLevel (a ++ (u ++ b)) (a ++ (u ++ b)) = true) :
    importLevel (a ++ (v ++ b)) (a ++ (v ++ b)) = true := by
  -- a brace of a namespace is one after the replacement
  have hbrace : ∀ {Q Q' : List Char}, Moved a u v b Q Q' →
      byteLength Q ∈ namespaceBraces (a ++ (u ++ b)) →
      byteLength Q' ∈ namespaceBraces (a ++ (v ++ b)) := fun {Q Q'} hQ hmem => by
    obtain ⟨P, k, g, name, g', R, hat, hoffset⟩ := mem_namespaceBraces_iff.mp hmem
    obtain ⟨P', name', R', hat', -, hmoved⟩ := hat.moved hu hv fun hsplit =>
      hat.not_inside hfree (.inr hident) hu.name hsplit
    obtain ⟨r, hr⟩ := hQ.isPrefix
    obtain ⟨r', hr'⟩ := hmoved.isPrefix
    obtain ⟨rfl, -⟩ := append_eq_append_of_eq (hr.trans hr'.symm) hoffset
    exact mem_namespaceBraces_iff.mpr ⟨P', k, g, name', g', R',
      hat', by rw [hQ.unique hu.name.ne_nil hmoved]⟩
  have hplain : ∀ {w : List Char}, IsPath w → ∀ c ∈ w, c ≠ '{' ∧ c ≠ '}' := fun hw c hc => by
    have := hw.isPathChar c hc
    constructor <;> (rintro rfl; revert this; decide)
  unfold importLevel bracesAt at hlevel ⊢
  rw [openBraces_append, openBraces_append, openBraces_of_plain (hplain hu.name)] at hlevel
  rw [openBraces_append, openBraces_append, openBraces_of_plain (hplain hv.name)]
  refine all_id_of_forall₂ (openBraces_mono (fun Q t hQ hmark =>
    ?_) (openBraces_mono (fun Q t hQ hmark => ?_) .nil)) hlevel
  · rw [List.contains_iff_mem] at hmark ⊢
    have := hbrace (.back hQ)
    simp only [byteLength_append, ← Nat.add_assoc, Nat.zero_add] at this hmark ⊢
    exact this hmark
  · rw [List.contains_iff_mem, Nat.zero_add] at hmark ⊢
    exact hbrace (.front hQ (List.cons_ne_nil _ _)) hmark

end Namespaces

/-! ## Classes -/

section Classes

variable {P₀ k' name' R' : List Char}

/-- The name does not end with a class keyword. -/
def NoClassWord (u : List Char) : Prop :=
  ∀ t k, u = t ++ k → t.getLast?.any isWordChar = false → ¬ ∃ w ∈ classWords,
    k.map foldLetter = w.toList

theorem NoClassWord.not_inside (h : NoClassWord u)
    (hkeyword : ∃ w ∈ classWords, k.map foldLetter = w.toList) (hsplit : u = t ++ k)
    (hfront : (a ++ t).getLast?.any isWordChar = false) : False :=
  h t k hsplit (any_getLast?_append hfront) hkeyword

/-- **Class keywords are read as before**, if the name behind them is not the one that is replaced.
-/
theorem ClassAt.moved (h : ClassAt (a ++ (u ++ b)) P k g name R) (hu : Amid a u b)
    (hfree : NoClassWord u) (hname : P ++ (k ++ g) ≠ a) :
    ∃ P' R', ClassAt (a ++ (v ++ b)) P' k g name R' ∧ Moved a u v b P P' ∧
      Moved a u v b (P ++ (k ++ g)) (P' ++ (k ++ g)) := by
  rcases hu.keyword_cases h.text h.isIdent_keyword h.gap_ne h.gap with ⟨B, rfl, hb⟩ |
      ⟨t, hsplit, rfl⟩ | ⟨t, ha, hrest⟩
  · have hmoved : Moved a u v b (a ++ (u ++ B)) (a ++ (v ++ B)) := .back hb
    have hmoved' : Moved a u v b (a ++ (u ++ (B ++ (k ++ g)))) (a ++ (v ++ (B ++ (k ++ g)))) :=
      .back (t := name ++ R) (by simp [hb])
    refine ⟨a ++ (v ++ B), R,
      ⟨by simp [hb], hmoved.wordStart hu.name h.front, h.keyword, h.gap_ne, h.gap, h.word, h.rest⟩,
      hmoved, ?_⟩
    simpa only [List.append_assoc] using hmoved'
  · exact (hfree.not_inside h.keyword hsplit h.front).elim
  cases t with
  | nil => exact absurd (by rw [ha, List.append_nil]) hname
  | cons y t =>
    have ha' : a = (P ++ (k ++ g)) ++ y :: t := by rw [ha]; simp only [List.append_assoc]
    have hlast : ∀ z ∈ (y :: t).getLast?, isWordChar z = false := fun z hz =>
      (Bool.or_eq_false_iff.mp (hu.last ha' z hz)).1
    obtain ⟨y₁, t₁, ht₁, rfl⟩ :=
      exists_behind_run hrest.symm (List.cons_ne_nil y t) h.word.word hlast
    refine ⟨P, y₁ :: t₁ ++ (v ++ b), ⟨?_, h.front, h.keyword, h.gap_ne, h.gap, h.word, h.rest⟩, ?_,
      ?_⟩
    · simp [ha', ht₁]
    · exact .front ha (List.append_ne_nil_of_left_ne_nil h.keyword_ne _)
    · exact .front ha' (List.cons_ne_nil y t)

/-- The class keyword in front of a place moves with the place. -/
theorem ClassLead.moved (h : ClassLead P P₀ k g) (hmoved : Moved a u v b P P') (hu : Amid a u b)
    (hfree : NoClassWord u) :
    ∃ P₀', ClassLead P' P₀' k g ∧ Moved a u v b P₀ P₀' := by
  cases hmoved with
  | @front P t ha hne =>
    have ha' : a = P₀ ++ (k ++ g ++ t) := by rw [ha, h.text]; simp only [List.append_assoc]
    refine ⟨P₀, h, .front ha' ?_⟩
    exact List.append_ne_nil_of_right_ne_nil _ hne
  | @back B t hb =>
    have hB := hu.of_append hb
    have htext : a ++ (u ++ B) = P₀ ++ (k ++ (g ++ [])) := by rw [List.append_nil]; exact h.text
    rcases hB.keyword_cases htext (isIdent_of_classWords h.keyword) h.gap_ne h.gap with
      ⟨B₀, rfl, rfl⟩ | ⟨t, hsplit, rfl⟩ | ⟨t, -, hnil⟩
    · have hmoved : Moved a u v b (a ++ (u ++ B₀)) (a ++ (v ++ B₀)) := .back
        (hb.trans (List.append_assoc _ _ _))
      exact ⟨a ++ (v ++ B₀),
        ⟨by simp, hmoved.wordStart hu.name h.front, h.keyword, h.gap_ne, h.gap⟩, hmoved⟩
    · exact (hfree.not_inside h.keyword hsplit h.front).elim
    · have hnil' := (List.append_eq_nil_iff.mp (List.append_eq_nil_iff.mp hnil.symm).2).1
      exact absurd hnil' hu.name.ne_nil

/-- **Class keywords are found as before.** By induction along the keywords in front: one is found
unless the one in front of it is, and that one stands where it stood. -/
theorem ClassFound.moved (hn : P.length + P'.length ≤ n) (hmoved : Moved a u v b P P')
    (hu : Amid a u b) (hv : Amid a v b) (hfree : NoClassWord u) (hfree' : NoClassWord v)
    (hat : ClassAt (a ++ (u ++ b)) P k g name R) (hat' : ClassAt (a ++ (v ++ b)) P' k' g' name' R')
    (h : ClassFound (a ++ (u ++ b)) P) : ClassFound (a ++ (v ++ b)) P' := by
  induction n using Nat.strong_induction_on generalizing u v P P' k g name R k' g' name' R' with
  | _ n ih =>
    refine hat'.found_iff.mpr fun P₀' k₀ g₀ hlead' hfound' => ?_
    obtain ⟨P₀, hlead, hmoved₀⟩ := hlead'.moved hmoved.symm hv hfree'
    have hlt : P₀'.length < P'.length ∧ P₀.length < P.length := by
      have hpos := List.length_pos_iff.mpr hlead.gap_ne
      have hlength := congrArg List.length hlead.text
      have hlength' := congrArg List.length hlead'.text
      simp only [List.length_append] at hlength hlength'
      omega
    exact hat.found_iff.mp h P₀ k₀ g₀ hlead
      (ih (P₀'.length + P₀.length) (by omega) (Nat.le_refl _) hmoved₀ hv hu hfree'
      hfree (hat'.lead hlead') (hat.lead hlead) hfound')

end Classes

end UseImports
