import UseImports.Proofs.Code.Runs

/-!
# The names of declarations

What the reader of imports takes for a name is one: identifiers with single backslashes between
them. So a declaration can be written out again, and it is always known under some name.

* `IsIdent`, `IsName`, `IsPath`: identifiers, and names without a leading backslash or with or
  without one.
* `qualifiedName?_of_isName`, `ident?_of_isIdent`: a name is read as far as it goes.
* `Declaration.WellNamed`: the full name is a name and the alias an identifier.
* `wellNamed_of_mem_imports`: **every declaration is well named.**
* `DeclaredIn`, `StatementAt.declaredIn`: **the declarations of a statement begin one behind the
  other.**
-/

namespace UseImports

open Cursor

variable {a body cs name rest u v : List Char} {c d stop : Cursor} {kind : ImportKind}
    {clause : Clause} {clauses : List (Nat × Clause)} {offset : Nat} {statement : Span}

/-! ## Identifiers and names -/

/-- An identifier. -/
structure IsIdent (cs : List Char) : Prop where
  begins : beginsIdent cs = true
  word : ∀ c ∈ cs, isWordChar c = true

/-- A name: identifiers with backslashes between them. -/
structure IsName (cs : List Char) : Prop where
  begins : beginsIdent cs = true
  whole : nameRest cs = cs.length

theorem nameRest_cons (c : Char) (cs : List Char) : nameRest (c :: cs) =
    if isWordChar c || (c == '\\' && beginsIdent cs) then nameRest cs + 1 else 0 := rfl

theorem beginsIdent_append (h : beginsIdent a = true) (b : List Char) :
    beginsIdent (a ++ b) = true := by
  cases a with
  | nil => cases h
  | cons c a => exact h

theorem ne_nil_of_beginsIdent (h : beginsIdent a = true) : a ≠ [] := by
  rintro rfl
  cases h

/-- A name goes on behind an identifier character. -/
theorem nameRest_pos (h : beginsIdent cs = true) : 0 < nameRest cs := by
  cases cs with
  | nil => cases h
  | cons c cs =>
    have hc : isWordChar c = true := isWordChar_of_isIdentStart h
    rw [nameRest_cons, hc]
    simp

theorem beginsIdent_take {n : Nat} (hn : 0 < n) : beginsIdent (cs.take n) = beginsIdent cs := by
  cases cs with
  | nil => rw [List.take_nil]
  | cons c cs =>
    obtain ⟨m, rfl⟩ : ∃ m, n = m + 1 := ⟨n - 1, by omega⟩
    rfl

/-- What is read as a name is read as one when it stands alone. -/
theorem nameRest_take (cs : List Char) : nameRest (cs.take (nameRest cs)) = nameRest cs := by
  induction cs with
  | nil => rfl
  | cons c cs ih =>
    rw [nameRest_cons]
    split
    · rename_i hc
      rw [List.take_succ_cons, nameRest_cons, ih, if_pos]
      rcases Bool.or_eq_true_iff.mp hc with hc | hc
      · simp [hc]
      · obtain ⟨hslash, hbegins⟩ := Bool.and_eq_true_iff.mp hc
        rw [hslash, beginsIdent_take (nameRest_pos hbegins), hbegins]
        simp
    · rfl

theorem isName_take (h : beginsIdent cs = true) :
    IsName (cs.take (nameRest cs)) where
  begins := by rw [beginsIdent_take (nameRest_pos h), h]
  whole := by rw [nameRest_take, List.length_take, Nat.min_eq_left (nameRest_le cs)]

/-- Behind a name that is read to its end the reading goes on. -/
theorem nameRest_append_of_whole (h : nameRest a = a.length) (b : List Char) :
    nameRest (a ++ b) = a.length + nameRest b := by
  induction a with
  | nil => simp
  | cons c a ih =>
    rw [nameRest_cons] at h
    split at h
    · rename_i hc
      have ha := ih (Nat.succ.inj h)
      rw [List.cons_append, nameRest_cons, if_pos, ha, List.length_cons]
      · omega
      · rcases Bool.or_eq_true_iff.mp hc with hc | hc
        · simp [hc]
        · obtain ⟨hslash, hbegins⟩ := Bool.and_eq_true_iff.mp hc
          rw [hslash, beginsIdent_append hbegins]
          simp
    · simp at h

theorem IsName.ne_nil (h : IsName a) : a ≠ [] :=
  ne_nil_of_beginsIdent h.begins

theorem IsIdent.ne_nil (h : IsIdent a) : a ≠ [] :=
  ne_nil_of_beginsIdent h.begins

theorem IsIdent.isName (h : IsIdent a) : IsName a := by
  refine ⟨h.begins, ?_⟩
  have hword := h.word
  clear h
  induction a with
  | nil => rfl
  | cons c a ih =>
    rw [nameRest_cons, hword c List.mem_cons_self, ih fun d hd =>
      hword d (List.mem_cons_of_mem c hd)]
    simp

/-- Two names with a backslash between them are a name. -/
theorem IsName.append {b : List Char} (ha : IsName a) (hb : IsName b) :
    IsName (a ++ '\\' :: b) where
  begins := beginsIdent_append ha.begins _
  whole := by
    rw [nameRest_append_of_whole ha.whole, nameRest_cons, hb.begins, hb.whole]
    simp

theorem mem_of_nameRest_eq (h : nameRest a = a.length) :
    ∀ c ∈ a, isWordChar c = true ∨ c = '\\' := by
  induction a with
  | nil => simp
  | cons x a ih =>
    rw [nameRest_cons] at h
    split at h
    · rename_i hx
      intro c hc
      rcases List.mem_cons.mp hc with rfl | hc
      · rcases Bool.or_eq_true_iff.mp hx with hx | hx
        · exact .inl hx
        · exact .inr (beq_iff_eq.mp (Bool.and_eq_true_iff.mp hx).1)
      · exact ih (Nat.succ.inj h) c hc
    · simp at h

/-- A name is made of word characters and backslashes. -/
theorem IsName.mem (h : IsName a) : ∀ c ∈ a, isWordChar c = true ∨ c = '\\' :=
  mem_of_nameRest_eq h.whole

theorem getLast?_of_nameRest_eq (h : nameRest a = a.length) : a.getLast? ≠ some '\\' := by
  induction a with
  | nil => simp
  | cons x a ih =>
    rw [nameRest_cons] at h
    split at h
    · rename_i hx
      cases a with
      | nil =>
        rintro hlast
        have hslash : x = '\\' := by simpa using hlast
        rw [hslash] at hx
        exact absurd hx (by decide)
      | cons y a =>
        rw [List.getLast?_cons_cons]
        exact ih (Nat.succ.inj h)
    · simp at h

/-- A name does not end in a backslash. -/
theorem IsName.getLast?_ne (h : IsName a) : a.getLast? ≠ some '\\' :=
  getLast?_of_nameRest_eq h.whole

theorem not_isIdentStart_backslash : isIdentStart '\\' = false := by decide

/-- A name does not begin with a backslash. -/
theorem IsName.head?_ne (h : IsName a) : a.head? ≠ some '\\' := by
  cases a with
  | nil => simp
  | cons c a =>
    intro hc
    obtain rfl : c = '\\' := by simpa using hc
    have hbegins : isIdentStart '\\' = true := h.begins
    rw [not_isIdentStart_backslash] at hbegins
    cases hbegins

/-- The rest of a name, from any of its characters on, is read to its end. -/
theorem nameRest_of_append (h : nameRest (u ++ v) = (u ++ v).length) : nameRest v = v.length := by
  induction u with
  | nil => exact h
  | cons c u ih =>
    rw [List.cons_append, nameRest_cons] at h
    split at h
    · exact ih (Nat.succ.inj h)
    · cases h

/-- In front of a backslash of a name stands a word. -/
theorem IsName.word_before (h : IsName a) (ha : a = u ++ '\\' :: v) :
    ∃ y ∈ u.getLast?, isWordChar y = true := by
  have hne : u ≠ [] := by
    rintro rfl
    exact h.head?_ne (by rw [ha]; rfl)
  obtain ⟨u, y, rfl⟩ := (List.eq_nil_or_concat' u).resolve_left hne
  refine ⟨y, by simp, (h.mem y (by simp [ha])).resolve_right ?_⟩
  -- an identifier begins behind each backslash
  rintro rfl
  have hrest : nameRest ('\\' :: '\\' :: v) = ('\\' :: '\\' :: v).length := by
    refine nameRest_of_append (u := u) ?_
    have hwhole := h.whole
    rw [ha] at hwhole
    simpa using hwhole
  rw [nameRest_cons] at hrest
  split at hrest
  · rename_i hbegins
    revert hbegins
    simp [beginsIdent, not_isIdentStart_backslash]
    decide
  · cases hrest

/-- A name with or without a leading backslash. -/
def IsPath (a : List Char) : Prop :=
  IsName a ∨ ∃ name, a = '\\' :: name ∧ IsName name

namespace IsPath

variable (h : IsPath a)
include h

theorem ne_nil : a ≠ [] := by
  rcases h with h | ⟨name, rfl, -⟩
  · exact h.ne_nil
  · exact List.cons_ne_nil _ _

theorem mem : ∀ c ∈ a, isWordChar c = true ∨ c = '\\' := by
  rcases h with h | ⟨name, rfl, h⟩
  · exact h.mem
  · exact List.forall_mem_cons.mpr ⟨.inr rfl, h.mem⟩

/-- It ends with a word. -/
theorem exists_last : ∃ y ∈ a.getLast?, isWordChar y = true := by
  have hname : ∀ {name : List Char}, IsName name → ∃ y ∈ name.getLast?, isWordChar y = true :=
    fun {name} h => by
    have hlast := List.getLast?_eq_some_getLast h.ne_nil
    refine ⟨_, hlast, (h.mem _ (List.mem_of_getLast? hlast)).resolve_right fun heq => ?_⟩
    exact h.getLast?_ne (heq ▸ hlast)
  rcases h with h | ⟨name, rfl, h⟩
  · exact hname h
  · obtain ⟨y, hy, hword⟩ := hname h
    exact ⟨y, by rw [List.getLast?_cons, Option.mem_def.mp hy]; rfl, hword⟩

end IsPath

theorem IsName.stripLeading (h : IsName a) : a.dropWhile (· == '\\') = a := by
  cases a with
  | nil => rfl
  | cons c a =>
    have hc : c ≠ '\\' := fun hc => h.head?_ne (by rw [hc]; rfl)
    rw [List.dropWhile_cons_of_neg (by simpa using hc)]

/-- The last segment of a name is not empty. -/
theorem IsName.shortName_ne {name : String} (h : IsName name.toList) : shortName name ≠ "" := by
  intro hempty
  have hnil : name.toList.reverse.takeWhile (· != '\\') = [] := by
    have := congrArg String.toList hempty
    simpa [shortName] using this
  cases hrev : name.toList.reverse with
  | nil => exact h.ne_nil (List.reverse_eq_nil_iff.mp hrev)
  | cons c cs =>
    have hlast : name.toList.getLast? = some c := by
      rw [← List.head?_reverse, hrev]
      rfl
    rw [hrev, List.takeWhile_cons] at hnil
    split at hnil
    · cases hnil
    · rename_i hc
      have hslash : c = '\\' := by simpa using hc
      exact h.getLast?_ne (hslash ▸ hlast)

/-! ## Reading names -/

namespace Cursor

theorem Reaches.upTo_eq (h : c.Reaches d) : c.after = c.upTo d ++ d.after := by
  obtain ⟨u, hu, -⟩ := h
  have hcut : c.upTo d = u := by
    rw [upTo, hu, List.length_append, Nat.add_sub_cancel, List.take_left']
    rfl
  rw [hcut, hu]

theorem Reaches.offset_eq (h : c.Reaches d) : d.offset = c.offset + byteLength (c.upTo d) := by
  obtain ⟨u, hu, hb⟩ := h
  have hcut : u = c.upTo d := List.append_cancel_right (hu.symm.trans (Reaches.upTo_eq ⟨u, hu, hb⟩))
  rw [offset, offset, hb, byteLength_append, byteLength_reverse, hcut, Nat.add_comm]

theorem optional_backslash_cons (B cs : List Char) :
    (Cursor.mk B ('\\' :: cs)).optional (literal? "\\") = ⟨'\\' :: B, cs⟩ := rfl

theorem optional_backslash_of_ne (h : c.after.head? ≠ some '\\') :
    c.optional (literal? "\\") = c := by
  have hfalse : ("\\".toList.isPrefixOf c.after) = false := by
    show (['\\'].isPrefixOf c.after) = false
    cases hc : c.after with
    | nil => rfl
    | cons x cs =>
      rw [hc] at h
      have hx : x ≠ '\\' := by simpa using h
      simp [List.isPrefixOf, Ne.symm hx]
  unfold optional literal?
  rw [hfalse]
  rfl

/-- **What is read as a qualified name is a name**, with or without a leading backslash. -/
theorem qualifiedName?_eq_some (h : c.qualifiedName? = some stop) :
    ∃ name, IsName name ∧ (c.upTo stop = name ∨ c.upTo stop = '\\' :: name) := by
  have hreach := confined_qualifiedName.forward h
  rw [qualifiedName?_eq] at h
  unfold nameBody? at h
  split at h
  · rename_i hbegins
    cases h
    refine ⟨_, isName_take hbegins, ?_⟩
    by_cases hslash : c.after.head? = some '\\'
    · right
      obtain ⟨cs, hcs⟩ : ∃ cs, c.after = '\\' :: cs := List.head?_eq_some_iff.mp hslash
      obtain ⟨B, A⟩ := c
      obtain rfl : A = '\\' :: cs := hcs
      rw [optional_backslash_cons] at hreach ⊢
      have := hreach.upTo_eq
      dsimp only [advance] at this ⊢
      refine List.append_cancel_right (this.symm.trans ?_)
      rw [List.cons_append, List.take_append_drop]
    · left
      rw [optional_backslash_of_ne hslash] at hreach ⊢
      have := hreach.upTo_eq
      dsimp only [advance] at this ⊢
      refine List.append_cancel_right (this.symm.trans ?_)
      rw [List.take_append_drop]
  · cases h

/-- A name is read to its end where it does not go on. -/
theorem qualifiedName?_of_isName (h : IsName name) (hrest : nameRest rest = 0) (B : List Char) :
    (Cursor.mk B (name ++ rest)).qualifiedName? = some ⟨name.reverse ++ B, rest⟩ := by
  have hhead : (name ++ rest).head? ≠ some '\\' := by
    rw [List.head?_append_of_ne_nil _ h.ne_nil]
    exact h.head?_ne
  rw [qualifiedName?_eq, optional_backslash_of_ne hhead, nameBody?,
    if_pos (beginsIdent_append h.begins _)]
  have hlen : nameRest (name ++ rest) = name.length := by
    rw [nameRest_append_of_whole h.whole, hrest, Nat.add_zero]
  simp [hlen, advance]

/-- The same with or without a leading backslash. -/
theorem qualifiedName?_of_isPath (h : IsPath name) (hrest : nameRest rest = 0) (B : List Char) :
    (Cursor.mk B (name ++ rest)).qualifiedName? = some ⟨name.reverse ++ B, rest⟩ := by
  rcases h with h | ⟨name, rfl, h⟩
  · exact qualifiedName?_of_isName h hrest B
  · have hbare := qualifiedName?_of_isName h hrest ('\\' :: B)
    have hhead : (name ++ rest).head? ≠ some '\\' := by
      rw [List.head?_append_of_ne_nil _ h.ne_nil]
      exact h.head?_ne
    rw [qualifiedName?_eq, optional_backslash_of_ne hhead] at hbare
    rw [qualifiedName?_eq, List.cons_append, optional_backslash_cons, hbare]
    simp

/-- What is read as an identifier is one. -/
theorem ident?_eq_some (h : c.ident? = some stop) : IsIdent (c.upTo stop) := by
  have hreach := confined_ident.forward h
  unfold ident? at h
  split at h
  · rename_i hbegins
    cases h
    have hcut : c.upTo (c.skipWhile isWordChar) = c.after.takeWhile isWordChar := by
      refine List.append_cancel_right (hreach.upTo_eq.symm.trans ?_)
      exact List.takeWhile_append_dropWhile.symm
    rw [hcut]
    refine ⟨?_, fun x hx => List.mem_takeWhile_imp hx⟩
    cases hc : c.after with
    | nil =>
      rw [hc] at hbegins
      cases hbegins
    | cons x cs =>
      rw [hc] at hbegins
      have hx : isWordChar x = true := isWordChar_of_isIdentStart hbegins
      rw [List.takeWhile_cons_of_pos hx]
      exact hbegins
  · cases h

theorem ident?_of_isIdent (h : IsIdent a) (B : List Char) :
    (Cursor.mk B a).ident? = some ⟨a.reverse ++ B, []⟩ := by
  have hall : ∀ c ∈ a, isWordChar c = true := h.word
  rw [ident?, if_pos h.begins, skipWhile, List.takeWhile_eq_self_iff.mpr hall,
    List.dropWhile_eq_nil_iff.mpr hall]

end Cursor

/-! ## Clauses -/

/-- A clause that was read off the text `cs`: its name and its alias are well formed, and they stand
in the text. -/
structure Clause.Sound (cs : List Char) (clause : Clause) : Prop where
  name : ∃ name, IsName name ∧ (clause.name = name ∨ clause.name = '\\' :: name)
  aliasName : ∀ a ∈ clause.aliasName, IsIdent a
  start_lt : clause.nameSpan.start < byteLength cs

theorem readNamed?_sound {kind : Option ImportKind} (hc : (atStart cs).Reaches c)
    (h : readNamed? kind c = some clause) : clause.Sound cs := by
  obtain ⟨stop, hstop, h⟩ := Option.bind_eq_some_iff.mp h
  obtain ⟨name, hname, hcut⟩ := qualifiedName?_eq_some hstop
  -- the name is not empty, so it begins in front of the end
  have hlt : c.offset < byteLength cs := by
    have hne : c.upTo stop ≠ [] := by
      rcases hcut with hcut | hcut
      · rw [hcut]
        exact hname.ne_nil
      · rw [hcut]
        exact List.cons_ne_nil _ _
    have htext := congrArg byteLength hc.text_eq
    rw [byteLength_append, byteLength_reverse, (confined_qualifiedName.forward hstop).upTo_eq,
      byteLength_append] at htext
    have := byteLength_pos hne
    rw [offset]
    omega
  split at h
  · cases h
    exact ⟨⟨name, hname, hcut⟩, by simp, hlt⟩
  · obtain ⟨second, -, h⟩ := Option.bind_eq_some_iff.mp h
    obtain ⟨last, hlast, h⟩ := Option.bind_eq_some_iff.mp h
    split at h
    · cases h
      refine ⟨⟨name, hname, hcut⟩, ?_, hlt⟩
      intro a ha
      obtain rfl : second.upTo last = a := by simpa using ha
      exact ident?_eq_some hlast
    · cases h

theorem kindKeyword?_reaches (h : kindKeyword? c = some (kind, d)) : c.Reaches d := by
  have hblanks : ∀ {e f : Cursor}, e.blanks? = some f → e.Reaches f := confined_blanks.forward
  unfold kindKeyword? at h
  split at h
  · rename_i k hk
    obtain ⟨e, he, heq⟩ := Option.map_eq_some_iff.mp h
    cases heq
    exact ((confined_folded (by decide)).forward hk).trans (hblanks he)
  · obtain ⟨e, he, heq⟩ := Option.map_eq_some_iff.mp h
    cases heq
    obtain ⟨k, hk, he⟩ := Option.bind_eq_some_iff.mp he
    exact ((confined_folded (by decide)).forward hk).trans (hblanks he)

/-- **A clause that can be read is sound.** -/
theorem readClause?_sound (h : readClause? cs = some clause) : clause.Sound cs := by
  unfold readClause? at h
  dsimp only at h
  split at h
  · rename_i clause' hkind
    cases h
    obtain ⟨⟨kind, c⟩, hc, hread⟩ := Option.bind_eq_some_iff.mp hkind
    exact readNamed?_sound (kindKeyword?_reaches hc) hread
  · exact readNamed?_sound (Reaches.refl _) h

theorem trim_of_isBlank (hcs : ∀ c ∈ cs, isBlank c = true) : trim cs = [] := by
  rw [trim, trimStart, List.dropWhile_eq_nil_iff.mpr hcs]
  rfl

theorem trim_split (cs : List Char) :
    ∃ ws, cs = cs.takeWhile isBlank ++ (trim cs ++ ws) ∧ ∀ c ∈ ws, isBlank c = true := by
  refine ⟨((trimStart cs).reverse.takeWhile isBlank).reverse, ?_,
    fun c hc => List.mem_takeWhile_imp (List.mem_reverse.mp hc)⟩
  have hend : trim cs ++ ((trimStart cs).reverse.takeWhile isBlank).reverse = trimStart cs := by
    rw [trim, trimEnd, dropEndWhile, ← List.reverse_append, List.takeWhile_append_dropWhile,
      List.reverse_reverse]
  rw [hend]
  exact List.takeWhile_append_dropWhile.symm

/-- The pieces of a text take its bytes, a comma behind each but the last. -/
theorem sum_splitOnChar (cs : List Char) :
    ((splitOnChar (· == ',') cs).map fun piece => byteLength piece + 1).sum =
      byteLength cs + 1 := by
  induction cs with
  | nil => rfl
  | cons c cs ih =>
    unfold splitOnChar
    split
    · rename_i hc
      have hcomma : (',' : Char).utf8Size = 1 := by decide
      simp [ih, eq_of_beq hc, hcomma]
      omega
    · split
      · rename_i hnil
        rw [hnil] at ih
        simp at ih
      · rename_i piece pieces hcons
        rw [hcons] at ih
        simp only [List.map_cons, List.sum_cons, byteLength_cons] at ih ⊢
        omega

/-- Where the name of a clause begins. -/
def clauseStart (clause : Nat × Clause) : Nat :=
  clause.1 + clause.2.nameSpan.start

/-- The clauses of a text can be relied on: each is sound, and they begin one behind the other
between two offsets. -/
structure InOrder (first last : Nat) (clauses : List (Nat × Clause)) : Prop where
  sound : ∀ clause ∈ clauses, ∃ cs, clause.2.Sound cs
  bounds : ∀ clause ∈ clauses, first ≤ clauseStart clause ∧ clauseStart clause < last
  increasing : clauses.Pairwise fun a b => clauseStart a < clauseStart b

theorem InOrder.weaken {first last first' last' : Nat} (h : InOrder first last clauses)
    (hfirst : first' ≤ first) (hlast : last ≤ last') :
    InOrder first' last' clauses where
  sound := h.sound
  bounds clause hc := by
    obtain ⟨hlo, hhi⟩ := h.bounds clause hc
    exact ⟨hfirst.trans hlo, hhi.trans_le hlast⟩
  increasing := h.increasing

theorem trimmedPieces_inOrder {pieces : List (List Char)}
    (h : ((trimmedPieces offset pieces).mapM fun (start, piece) =>
      (readClause? piece).map (start, ·)) = some clauses) :
    InOrder offset (offset + (pieces.map fun piece => byteLength piece + 1).sum - 1) clauses := by
  induction pieces generalizing offset clauses with
  | nil =>
    obtain rfl : clauses = [] := by simpa [trimmedPieces] using h.symm
    exact ⟨by simp, by simp, .nil⟩
  | cons piece pieces ih =>
    rw [List.map_cons, List.sum_cons]
    unfold trimmedPieces at h
    dsimp only at h
    split at h
    · exact (ih h).weaken (by omega) (by omega)
    · rw [List.mapM_cons] at h
      obtain ⟨first, hfirst, h⟩ := Option.bind_eq_some_iff.mp h
      obtain ⟨rest, hrest, h⟩ := Option.bind_eq_some_iff.mp h
      obtain rfl : first :: rest = clauses := by simpa using h
      obtain ⟨clause, hclause, rfl⟩ := Option.map_eq_some_iff.mp hfirst
      have hsound := readClause?_sound hclause
      have horder := ih hrest
      -- the first clause lies inside its piece, and the others lie behind it
      have hlt : byteLength (piece.takeWhile isBlank) + clause.nameSpan.start <
          byteLength piece := by
        obtain ⟨ws, hws, -⟩ := trim_split piece
        have hlen := congrArg byteLength hws
        rw [byteLength_append, byteLength_append] at hlen
        have : clause.nameSpan.start < byteLength (trim piece) := hsound.start_lt
        omega
      have hstart : clauseStart (offset + byteLength (piece.takeWhile isBlank), clause) =
          offset + byteLength (piece.takeWhile isBlank) + clause.nameSpan.start := rfl
      refine ⟨?_, ?_, List.pairwise_cons.mpr ⟨?_, horder.increasing⟩⟩
      · intro c hc
        rcases List.mem_cons.mp hc with rfl | hc
        · exact ⟨_, hsound⟩
        · exact horder.sound c hc
      · intro c hc
        rcases List.mem_cons.mp hc with rfl | hc
        · rw [hstart]
          omega
        · have := horder.bounds c hc
          omega
      · intro c hc
        have := (horder.bounds c hc).1
        rw [hstart]
        omega

theorem readClauses?_inOrder (h : readClauses? offset cs = some clauses) :
    InOrder offset (offset + byteLength cs) clauses := by
  have := trimmedPieces_inOrder h
  rwa [sum_splitOnChar, ← Nat.add_assoc, Nat.add_sub_cancel] at this

/-! ## Declarations -/

/-- The full name is a name, and the alias an identifier. -/
structure Declaration.WellNamed (d : Declaration) : Prop where
  fqn : IsName d.fqn.toList
  aliasName : ∀ a ∈ d.aliasName, IsIdent a.toList

/-- A declaration is known under a name. -/
theorem Declaration.WellNamed.localName_ne {d : Declaration} (h : d.WellNamed) :
    d.localName ≠ "" := by
  unfold Declaration.localName
  cases ha : d.aliasName with
  | none => exact h.fqn.shortName_ne
  | some a =>
    rintro rfl
    exact (h.aliasName "" ha).ne_nil rfl

/-- The declarations of one statement: well named, and one behind the other inside the statement. -/
structure DeclaredIn (statement : Span) (ds : List Declaration) : Prop where
  wellNamed : ∀ d ∈ ds, d.WellNamed
  inside : ∀ d ∈ ds, statement.start ≤ d.span.start ∧ d.span.start < statement.stop
  increasing : ds.Pairwise fun d e => d.span.start < e.span.start

theorem declaredIn_nil (statement : Span) : DeclaredIn statement [] :=
  ⟨by simp, by simp, .nil⟩

theorem aliasName_sound (h : clause.Sound cs) :
    ∀ a ∈ clause.aliasName.map String.ofList, IsIdent a.toList := by
  intro a ha
  obtain ⟨b, hb, rfl⟩ := Option.map_eq_some_iff.mp ha
  rw [String.toList_ofList]
  exact h.aliasName b hb

theorem readSequence_declaredIn (hstart : statement.start ≤ offset)
    (hstop : offset + byteLength body < statement.stop) :
    DeclaredIn statement (readSequence ⟨[], []⟩ ⟨statement, kind⟩ offset body) := by
  unfold readSequence
  cases hread : readClauses? offset body with
  | none => exact declaredIn_nil statement
  | some clauses =>
    have horder := readClauses?_inOrder hread
    refine ⟨?_, ?_, ?_⟩
    · intro d hd
      obtain ⟨⟨start, clause⟩, hmem, rfl⟩ := List.mem_map.mp hd
      obtain ⟨cs, hsound⟩ := horder.sound _ hmem
      refine ⟨?_, aliasName_sound hsound⟩
      obtain ⟨name, hname, hcut⟩ := hsound.name
      have hstrip : clause.name.dropWhile (· == '\\') = name := by
        rcases hcut with hcut | hcut
        · rw [hcut, hname.stripLeading]
        · rw [hcut, List.dropWhile_cons_of_pos rfl, hname.stripLeading]
      simp only [stripLeading, String.toList_ofList]
      rw [hstrip]
      exact hname
    · intro d hd
      obtain ⟨⟨start, clause⟩, hmem, rfl⟩ := List.mem_map.mp hd
      have hbounds : offset ≤ start + clause.nameSpan.start ∧
          start + clause.nameSpan.start < offset + byteLength body := horder.bounds _ hmem
      dsimp only
      split
      · dsimp only
        omega
      · omega
    · -- one clause alone stands for the statement; several have their own places
      by_cases hshares : 1 < clauses.length
      · simp only [hshares, decide_true, if_true]
        exact List.pairwise_map.mpr horder.increasing
      · match clauses, hshares with
        | [], _ => exact .nil
        | [clause], _ => exact List.pairwise_singleton _ _
        | _ :: _ :: _, hshares => exact absurd (by simp) hshares

theorem dropEndWhile_isPrefix (p : Char → Bool) (cs : List Char) : dropEndWhile p cs <+: cs := by
  unfold dropEndWhile
  have := List.reverse_prefix.mpr (List.dropWhile_suffix (l := cs.reverse) p)
  rwa [List.reverse_reverse] at this

theorem groupName?_isName {group : List Char} (h : groupName? cs = some group) : IsName group := by
  unfold groupName? at h
  dsimp only at h
  split at h
  · rename_i stop hstop
    split at h
    · rename_i hempty
      obtain rfl := Option.some.inj h
      obtain ⟨name, hname, hcut⟩ := qualifiedName?_eq_some hstop
      have hwhole := (confined_qualifiedName.forward hstop).upTo_eq
      rw [List.isEmpty_iff.mp hempty, List.append_nil] at hwhole
      rcases hcut with hcut | hcut
      · rw [← hcut, ← hwhole] at hname
        exact hname
      · -- the backslashes in front are gone
        exfalso
        rw [hcut] at hwhole
        obtain ⟨ws, hws⟩ := dropEndWhile_isPrefix (· == '\\') ((trim cs).dropWhile (· == '\\'))
        have hhead : ((trim cs).dropWhile (· == '\\')).head? = some '\\' := by
          rw [← hws]
          dsimp only [atStart] at hwhole
          rw [hwhole]
          rfl
        have hne := List.head?_dropWhile_not (· == '\\') (trim cs)
        rw [hhead] at hne
        simp at hne
    · cases h
  · cases h

theorem readGroup_declaredIn {front inner : List Char} (hstart : statement.start ≤ offset)
    (hstop : offset + byteLength front + 1 + byteLength inner < statement.stop) :
    DeclaredIn statement (readGroup ⟨[], []⟩ ⟨statement, kind⟩ offset front inner) := by
  unfold readGroup
  split
  · rename_i group clauses hgroup hread
    split
    · exact declaredIn_nil statement
    · rename_i hplain
      have horder := readClauses?_inOrder hread
      refine ⟨?_, ?_, List.pairwise_map.mpr horder.increasing⟩
      · intro d hd
        obtain ⟨⟨start, clause⟩, hmem, rfl⟩ := List.mem_map.mp hd
        obtain ⟨cs, hsound⟩ := horder.sound _ hmem
        refine ⟨?_, aliasName_sound hsound⟩
        obtain ⟨name, hname, hcut⟩ := hsound.name
        have hcut' : clause.name = name := by
          refine hcut.resolve_right fun hslash => hplain ?_
          refine List.any_eq_true.mpr ⟨_, hmem, ?_⟩
          show (clause.name.head? == some '\\') = true
          rw [hslash]
          rfl
        simp only [String.toList_ofList]
        rw [hcut']
        exact (groupName?_isName hgroup).append hname
      · intro d hd
        obtain ⟨⟨start, clause⟩, hmem, rfl⟩ := List.mem_map.mp hd
        have hbounds : offset + byteLength front + 1 ≤ start + clause.nameSpan.start ∧
            start + clause.nameSpan.start < offset + byteLength front + 1 + byteLength inner :=
          horder.bounds _ hmem
        dsimp only
        omega
  · exact declaredIn_nil statement

theorem statementStart_reaches (body : List Char) :
    (atStart body).Reaches (statementStart body).2 := by
  unfold statementStart
  cases hkind : kindKeyword? (atStart body).skipBlanks with
  | none => exact Reaches.refl _
  | some start => exact (reaches_skipBlanks _).trans (kindKeyword?_reaches hkind)

/-- **The declarations of a statement are well named, and they begin one behind the other.** -/
theorem readBody_declaredIn (hstart : statement.start ≤ offset)
    (hstop : offset + byteLength body < statement.stop) :
    DeclaredIn statement (readBody statement offset body) := by
  have hlen := congrArg byteLength (statementStart_reaches body).text_eq
  rw [byteLength_append, byteLength_reverse] at hlen
  have hoffset : (statementStart body).2.offset = byteLength (statementStart body).2.before := rfl
  dsimp only [readBody, Document.readBody]
  generalize (statementStart body).2 = start at *
  have hfront :=
    congrArg byteLength (List.take_append_drop (start.after.takeWhile (· ≠ '{')).length start.after)
  have htake : start.after.take (start.after.takeWhile (· ≠ '{')).length =
      start.after.takeWhile (· ≠ '{') :=
    (List.prefix_iff_eq_take.mp (List.takeWhile_prefix _)).symm
  rw [htake, byteLength_append] at hfront
  split
  · exact readSequence_declaredIn (by omega) (by omega)
  · rename_i c rest hrest
    rw [hrest, byteLength_cons] at hfront
    have hc := c.utf8Size_pos
    have hinner :=
      congrArg byteLength (List.take_append_drop (rest.takeWhile (· ≠ '}')).length rest)
    have htake' : rest.take (rest.takeWhile (· ≠ '}')).length = rest.takeWhile (· ≠ '}') :=
      (List.prefix_iff_eq_take.mp (List.takeWhile_prefix _)).symm
    rw [htake', byteLength_append] at hinner
    split
    · exact declaredIn_nil statement
    · split
      · exact readGroup_declaredIn (by omega) (by omega)
      · exact declaredIn_nil statement

/-- **Every declaration is well named.** -/
theorem wellNamed_of_mem_imports {code : List Char} {d : Declaration} (h : d ∈ imports code) :
    d.WellNamed := by
  obtain ⟨k, s, body, hmem, -, -, hd⟩ := site_of_mem_imports h
  obtain ⟨hk, -⟩ := mem_useStarts hmem
  obtain ⟨-, -, -, -, w, -, -, -, hbefore⟩ := useKeyword?_eq_some hk
  have hle : k.offset ≤ s.offset := by
    rw [offset, offset, hbefore, byteLength_append]
    omega
  exact (readBody_declaredIn hle (by simp)).wellNamed d hd

theorem wellNamed_of_mem_declarations {doc : Document} {d : Declaration}
    (h : d ∈ doc.declarations) : d.WellNamed := by
  have hmem : d.unlined ∈ imports doc.code := by
    rw [← declarations_unlined]
    exact List.mem_map_of_mem h
  have hnamed := wellNamed_of_mem_imports hmem
  exact ⟨hnamed.fqn, hnamed.aliasName⟩

/-- **The declarations of a statement begin one behind the other.** -/
theorem StatementAt.declaredIn {s : List Char} (h : StatementAt s body stop) :
    DeclaredIn ⟨0, byteLength s⟩ (UseImports.imports s) := by
  rw [h.imports, statementImports_eq, h.statementBody]
  dsimp only
  rw [h.span_eq]
  refine readBody_declaredIn (Nat.zero_le _) ?_
  have := congrArg Span.stop h.span_eq
  dsimp only at this ⊢
  omega

end UseImports
