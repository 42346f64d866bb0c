import UseImports.Edit.Insertion
import UseImports.Proofs.Declaration.Names
import UseImports.Proofs.Resolution

/-!
# New aliases

The alias of a new import (`synthesize_alias`) is made of names in the document, the first of them
in upper case. The upper-case form of a letter begins with a letter and goes on with characters of
words, so the alias is an identifier, and it can be written in a statement. If it is taken, a number
is put behind it: of the numbered names, which are all different, some one is free.

* `isIdent_upper`: the upper-case form of what may begin an identifier.
* `AliasStem`, `aliasStem_aliasBase`: the first choice for an alias.
* `FirstFree`, `firstFree_freshAlias`: **a new alias is the first choice that is free.**
* `isIdent_freshAlias`: **a new alias is an identifier.**
* `imported_names_fresh`: **imported names never clash.**
-/

namespace UseImports

open Cursor

variable {n : Nat} {c : Char} {a b front short : List Char} {fqn name : String} {doc : Document}

/-! ## Upper case -/

/-- The upper-case forms of the letters of the run are letters: the run has no letters, or the forms
lie in one range, or they are looked up one by one. -/
def CaseRun.keepsLetters (r : CaseRun) : Bool :=
  letterRanges.all (fun l => l.2 < r.lo || r.hi < l.1) ||
    letterRanges.any (fun l =>
      0x80 ≤ l.1 && (l.1 : Int) ≤ r.lo + r.shift && (r.hi : Int) + r.shift ≤ l.2) ||
    (List.range (r.hi + 1 - r.lo)).all fun k =>
      k % r.step != 0 || isLetter (Char.ofNat ((r.lo + k : Nat) + r.shift).toNat)

theorem keepsLetters_upperRuns : ∀ r ∈ upperRuns, r.keepsLetters = true := by decide +kernel

theorem upperExpansions_ident : ∀ e ∈ upperExpansions,
    ((e.2.map Char.ofNat).head?.any isIdentStart && (e.2.map Char.ofNat).all isWordChar) =
      true := by decide +kernel

/-- No range of letters goes beyond the characters there are, or into the surrogates. -/
theorem isValidChar_of_letterRanges :
    ∀ l ∈ letterRanges, l.2 < 0xd800 ∨ (0xdfff < l.1 ∧ l.2 < 0x110000) := by
  decide +kernel

theorem toNat_ofNat_of_mem {l : CharRange} (hl : l ∈ letterRanges) (hlo : l.1 ≤ n) (hhi : n ≤ l.2) :
    (Char.ofNat n).toNat = n := by
  have hvalid : n.isValidChar := by
    rcases isValidChar_of_letterRanges l hl with h | ⟨h, h'⟩
    · exact .inl (by omega)
    · exact .inr ⟨by omega, by omega⟩
  rw [Char.ofNat, dif_pos hvalid]
  rfl

theorem isLetter_of_holds {r : CaseRun} (hr : r ∈ upperRuns) (hc : r.holds c = true)
    (hhigh : 0x80 ≤ c.toNat) (hletter : isLetter c = true) :
    isLetter (Char.ofNat ((c.toNat : Int) + r.shift).toNat) = true := by
  simp only [CaseRun.holds, Bool.and_eq_true, decide_eq_true_eq, beq_iff_eq] at hc
  obtain ⟨⟨hlo, hhi⟩, hstep⟩ := hc
  have hkeeps := keepsLetters_upperRuns r hr
  simp only [CaseRun.keepsLetters, Bool.or_eq_true] at hkeeps
  rcases hkeeps with (hnone | hone) | heach
  · -- the run has no letters
    rw [isLetter, if_neg (by omega), inRanges_iff] at hletter
    obtain ⟨l, hl, hle, hge⟩ := hletter
    have := List.all_eq_true.mp hnone l hl
    simp only [Bool.or_eq_true, decide_eq_true_eq] at this
    omega
  · obtain ⟨l, hl, hrange⟩ := List.any_eq_true.mp hone
    simp only [Bool.and_eq_true, decide_eq_true_eq] at hrange
    obtain ⟨⟨hascii, hfirst⟩, hlast⟩ := hrange
    have hto := toNat_ofNat_of_mem hl (n := ((c.toNat : Int) + r.shift).toNat) (by omega) (by omega)
    rw [isLetter, if_neg (by omega), inRanges_iff]
    exact ⟨l, hl, by omega, by omega⟩
  · have := List.all_eq_true.mp heach (c.toNat - r.lo) (List.mem_range.mpr (by omega))
    simp only [Bool.or_eq_true, bne_iff_ne, ne_eq, hstep, not_true_eq_false, false_or] at this
    rwa [Nat.add_sub_cancel' hlo] at this

theorem isIdentStart_toUpper_ofNat : ∀ n < 0x80, isIdentStart (Char.ofNat n) = true →
    isIdentStart (Char.ofNat n).toUpper = true := by decide +kernel

theorem mem_of_lookup {table : List (Nat × List Nat)} {codes : List Nat}
    (h : table.lookup n = some codes) : (n, codes) ∈ table := by
  obtain ⟨front, back, rfl, -⟩ := List.lookup_eq_some_iff.mp h
  simp

/-- **The upper-case form of what may begin an identifier is an identifier.** -/
theorem isIdent_upper (hc : isIdentStart c = true) : IsIdent (upper c) := by
  have hsingle : ∀ d : Char, isIdentStart d = true → IsIdent [d] := fun d hd =>
    ⟨hd, fun x hx => by rw [List.mem_singleton.mp hx]; exact isWordChar_of_isIdentStart hd⟩
  unfold upper
  split
  · refine hsingle _ ?_
    rename_i hascii
    have := isIdentStart_toUpper_ofNat c.toNat hascii
    rw [Char.ofNat_toNat] at this
    exact this hc
  · rename_i hhigh
    split
    · rename_i codes hlookup
      have hident := upperExpansions_ident _ (mem_of_lookup hlookup)
      rw [Bool.and_eq_true] at hident
      refine ⟨?_, fun d hd => List.all_eq_true.mp hident.2 d hd⟩
      cases hcodes : codes.map Char.ofNat with
      | nil =>
        rw [hcodes] at hident
        cases hident.1
      | cons d ds =>
        rw [hcodes] at hident
        exact hident.1
    · split
      · rename_i r hfind
        refine hsingle _ ?_
        have hholds : r.holds c = true :=
          @List.find?_some _ (fun x : CaseRun => x.holds c) _ _ hfind
        rw [isIdentStart, Bool.or_eq_true, beq_iff_eq] at hc
        rcases hc with rfl | hletter
        · exact absurd (by decide) hhigh
        · rw [isIdentStart, isLetter_of_holds (List.mem_of_find?_eq_some hfind) hholds
            (by omega) hletter, Bool.or_true]
      · exact hsingle c hc

theorem IsIdent.append (ha : IsIdent a) (hb : ∀ c ∈ b, isWordChar c = true) :
    IsIdent (a ++ b) where
  begins := beginsIdent_append ha.begins b
  word c hc := (List.mem_append.mp hc).elim (ha.word c) (hb c)

theorem IsIdent.capitalize (h : IsIdent a) : IsIdent (UseImports.capitalize a) := by
  cases a with
  | nil => exact absurd rfl h.ne_nil
  | cons c a =>
    exact (isIdent_upper h.begins).append fun d hd => h.word d (List.mem_cons_of_mem c hd)

/-! ## Segments -/

/-- A name is cut at a backslash: what stands in front of it and behind it are names. -/
theorem IsName.of_append (h : IsName (a ++ '\\' :: b)) : IsName a ∧ IsName b := by
  obtain ⟨hbegins, hwhole⟩ := h
  have hcut : nameRest a = a.length ∧ beginsIdent b = true ∧ nameRest b = b.length := by
    clear hbegins
    induction a with
    | nil =>
      rw [List.nil_append, nameRest_cons] at hwhole
      split at hwhole
      · rename_i hgo
        have hword : isWordChar '\\' = false := by decide
        rw [hword, Bool.false_or, Bool.and_eq_true] at hgo
        exact ⟨rfl, hgo.2, Nat.succ.inj hwhole⟩
      · simp at hwhole
    | cons c a ih =>
      rw [List.cons_append, nameRest_cons] at hwhole
      split at hwhole
      · rename_i hgo
        obtain ⟨ha, hb⟩ := ih (Nat.succ.inj hwhole)
        refine ⟨?_, hb⟩
        rw [nameRest_cons, if_pos, ha, List.length_cons]
        -- a backslash at the end of `a` would be followed by another one
        cases a with
        | nil =>
          have hslash : beginsIdent ('\\' :: b) = false := not_isIdentStart_backslash
          rw [List.nil_append, hslash, Bool.and_false, Bool.or_false] at hgo
          rw [hgo, Bool.true_or]
        | cons d a => exact hgo
      · simp at hwhole
  refine ⟨⟨?_, hcut.1⟩, ⟨hcut.2.1, hcut.2.2⟩⟩
  cases a with
  | nil =>
    have hslash : beginsIdent ('\\' :: b) = false := not_isIdentStart_backslash
    rw [List.nil_append, hslash] at hbegins
    cases hbegins
  | cons c a => exact hbegins

theorem IsName.isIdent (h : IsName a) (hbare : '\\' ∉ a) : IsIdent a where
  begins := h.begins
  word c hc := (h.mem c hc).resolve_right fun heq => hbare (heq ▸ hc)

/-- A text is cut at its last backslash, if it has one. -/
theorem exists_lastSegment (cs : List Char) :
    '\\' ∉ cs ∨ ∃ front short, cs = front ++ '\\' :: short ∧ '\\' ∉ short := by
  by_cases h : '\\' ∈ cs
  · obtain ⟨xs, ys, hcut, hxs⟩ := List.eq_append_cons_of_mem (List.mem_reverse.mpr h)
    refine .inr ⟨ys.reverse, xs.reverse, ?_, fun hmem => hxs (List.mem_reverse.mp hmem)⟩
    simpa using congrArg List.reverse hcut
  · exact .inl h

theorem not_backslash {cs : List Char} (h : '\\' ∉ cs) :
    ∀ c ∈ cs.reverse, (c != '\\') = true := fun _ hc =>
  bne_iff_ne.mpr fun heq => h (heq ▸ List.mem_reverse.mp hc)

theorem shortName_of_not_mem (h : '\\' ∉ name.toList) : shortName name = name := by
  rw [shortName, List.takeWhile_eq_self_iff.mpr (not_backslash h), List.reverse_reverse,
    String.ofList_toList]

theorem shortName_of_append (hname : name.toList = front ++ '\\' :: short) (h : '\\' ∉ short) :
    shortName name = String.ofList short := by
  rw [shortName, hname, List.reverse_append, List.reverse_cons, List.append_assoc,
    List.takeWhile_append_of_pos (not_backslash h)]
  simp

/-- The parent of a name is what stands in front of its last backslash. -/
theorem parentNamespace?_of_append (hname : (stripLeading name).toList = front ++ '\\' :: short)
    (h : '\\' ∉ short) : parentNamespace? name = some (String.ofList front) := by
  rw [stripLeading, String.toList_ofList] at hname
  unfold parentNamespace?
  have hmem : (front ++ '\\' :: short).contains '\\' = true := by simp
  rw [hname]
  dsimp only
  rw [if_pos hmem, List.reverse_append, List.reverse_cons, List.append_assoc,
    List.dropWhile_append_of_pos (not_backslash h)]
  simp

theorem parentNamespace?_of_not_mem (h : '\\' ∉ (stripLeading name).toList) :
    parentNamespace? name = none := by
  rw [stripLeading, String.toList_ofList] at h
  unfold parentNamespace?
  dsimp only
  rw [if_neg (by simpa using h)]

/-- A name is its last segment, or that segment behind a name and a backslash. -/
theorem IsName.cases_shortName (h : IsName name.toList) :
    IsIdent (shortName name).toList ∧
      (parentNamespace? name = none ∨ ∃ parent, parentNamespace? name = some parent ∧
        IsName parent.toList) := by
  have hstrip : (UseImports.stripLeading name).toList = name.toList := by
    rw [UseImports.stripLeading, h.stripLeading, String.toList_ofList]
  rcases exists_lastSegment name.toList with hbare | ⟨front, short, hname, hshort⟩
  · rw [shortName_of_not_mem hbare]
    exact ⟨h.isIdent hbare, .inl (parentNamespace?_of_not_mem (hstrip ▸ hbare))⟩
  · obtain ⟨hparent, hlast⟩ := IsName.of_append (hname ▸ h)
    rw [shortName_of_append hname hshort, String.toList_ofList]
    refine ⟨hlast.isIdent hshort,
      .inr ⟨_, parentNamespace?_of_append (hstrip.trans hname) hshort, ?_⟩⟩
    rwa [String.toList_ofList]

theorem isWordChar_of_isDigit (h : c.isDigit = true) : isWordChar c = true := by
  have hle : c.toNat ≤ 57 := by
    simp only [Char.isDigit, Bool.and_eq_true, decide_eq_true_eq] at h
    exact UInt32.le_iff_toNat_le.mp h.2
  rw [isWordChar, if_pos (by omega), Char.isAlphanum, h, Bool.or_true, Bool.true_or]

theorem isWordChar_of_mem_toString (h : c ∈ (toString n).toList) : isWordChar c = true := by
  have hmem : c ∈ Nat.toDigits 10 n := by simpa [toString] using h
  exact isWordChar_of_isDigit (Nat.isDigit_of_mem_toDigits (by decide) (by decide) hmem)

theorem isIdent_aliasBase (h : IsName fqn.toList) : IsIdent (aliasBase fqn).toList := by
  obtain ⟨hshort, hparent⟩ := h.cases_shortName
  rw [aliasBase]
  rcases hparent with hnone | ⟨parent, hsome, hname⟩
  · rw [hnone]
    have hglobal : IsIdent "Global".toList := ⟨by decide, by decide⟩
    rw [String.toList_append]
    exact hglobal.append hshort.word
  · rw [hsome, String.toList_append, capitalized, String.toList_ofList]
    exact hname.cases_shortName.1.capitalize.append hshort.word

/-! ## Free names -/

/-- The first choice for the alias of a class with the given name: its last parent segment with its
first letter in upper case, or `Global` if it has no parent, and behind it the short name. -/
inductive AliasStem : List Char → String → Prop
  | rooted {short : List Char} : '\\' ∉ short → AliasStem short ("Global" ++ String.ofList short)
  | parented {front segment short : List Char} : front = [] ∨ front.getLast? = some '\\' →
      '\\' ∉ segment →
      '\\' ∉ short → AliasStem (front ++ (segment ++ '\\' :: short))
        (capitalized (String.ofList segment) ++ String.ofList short)

/-- Leading backslashes are no part of the short name. -/
theorem shortName_stripLeading (name : String) :
    shortName (stripLeading name) = shortName name := by
  have hlead : (name.toList.takeWhile (· == '\\')).reverse.takeWhile (· != '\\') = [] := by
    rw [List.takeWhile_eq_nil_iff]
    intro hlt
    have hmem := List.getElem_mem hlt
    have := List.mem_takeWhile_imp (List.mem_reverse.mp hmem)
    simpa using this
  have hcut := congrArg List.reverse (@List.takeWhile_append_dropWhile _ (· == '\\') name.toList)
  rw [shortName, shortName, stripLeading, String.toList_ofList, ← hcut, List.reverse_append,
    List.takeWhile_append, hlead, List.append_nil]
  split
  · rename_i hlength
    rw [(List.takeWhile_prefix _).eq_of_length hlength]
  · rfl

theorem aliasStem_aliasBase (fqn : String) :
    AliasStem (stripLeading fqn).toList (aliasBase fqn) := by
  rcases exists_lastSegment (stripLeading fqn).toList with hbare | ⟨parent, short, hname, hshort⟩
  · rw [aliasBase, parentNamespace?_of_not_mem hbare, ← shortName_stripLeading,
      shortName_of_not_mem hbare]
    have := AliasStem.rooted hbare
    rwa [String.ofList_toList] at this
  · rw [aliasBase, parentNamespace?_of_append hname hshort, ← shortName_stripLeading,
      shortName_of_append hname hshort, hname]
    dsimp only
    rcases exists_lastSegment parent with hbare | ⟨front, segment, rfl, hsegment⟩
    · rw [shortName_of_not_mem (by rwa [String.toList_ofList])]
      exact .parented (.inl rfl) hbare hshort
    · rw [shortName_of_append String.toList_ofList hsegment]
      have := @AliasStem.parented (front ++ ['\\']) segment short (.inr (by simp)) hsegment hshort
      simpa using this

/-- The name is the first one that is not taken: the base, or else the base with the least number
from two on that makes it free. -/
inductive FirstFree (base : String) (taken : List String) : String → Prop
  | base : base ∉ taken → FirstFree base taken base
  | numbered {n : Nat} : base ∈ taken → 2 ≤ n → base ++ toString n ∉ taken →
      (∀ m, 2 ≤ m → m < n → base ++ toString m ∈ taken) → FirstFree base taken (base ++ toString n)

theorem FirstFree.not_mem {base : String} {taken : List String} (h : FirstFree base taken name) :
    name ∉ taken := by
  cases h with
  | base hfree => exact hfree
  | numbered _ _ hfree _ => exact hfree

/-- Different numbers make different names. -/
theorem numbered_injective (base : String) :
    Function.Injective fun n : Nat => base ++ toString n := fun m n h => by
  have hdigits : Nat.toDigits 10 m = Nat.toDigits 10 n := by
    have hlist := congrArg String.toList ((String.append_right_inj base).mp h)
    simpa only [Nat.toString_eq_repr, Nat.toList_repr] using hlist
  simpa only [Nat.ofDigitChars_ten_toDigits] using congrArg (Nat.ofDigitChars 10 · 0) hdigits

/-- **Among more numbered names than are taken, one is free.** -/
theorem exists_free_number (base : String) (taken : List String) :
    ∃ n ∈ List.range (taken.length + 1), base ++ toString (n + 2) ∉ taken := by
  by_contra hall
  have hsubset : (List.range (taken.length + 1)).map (fun n => base ++ toString (n + 2)) ⊆ taken :=
    fun name hname => by
    obtain ⟨n, hn, rfl⟩ := List.mem_map.mp hname
    by_contra hfree
    exact hall ⟨n, hn, hfree⟩
  have hnodup : ((List.range (taken.length + 1)).map fun n => base ++ toString (n + 2)).Nodup :=
    List.nodup_range.map fun m n heq => Nat.add_right_cancel (numbered_injective base heq)
  have hle := (List.subperm_of_subset hnodup hsubset).length_le
  rw [List.length_map, List.length_range] at hle
  omega

/-- **A new alias is the first choice that is free.** -/
theorem firstFree_freshAlias (fqn : String) (taken : List String) :
    FirstFree (aliasBase fqn) taken (freshAlias fqn taken) := by
  unfold freshAlias
  dsimp only
  split
  · rename_i htaken
    obtain ⟨k, hk, hfree⟩ := exists_free_number (aliasBase fqn) taken
    rw [List.find?_map]
    cases hfind : (List.range (taken.length + 1)).find?
        ((fun name => !taken.contains name) ∘ fun n => aliasBase fqn ++ toString (n + 2)) with
    | none => exact absurd hfree (by simpa using List.find?_eq_none.mp hfind k hk)
    | some n =>
      obtain ⟨hn, -, hleast⟩ := List.find?_range_eq_some.mp hfind
      refine .numbered (List.contains_iff_mem.mp htaken) (Nat.le_add_left 2 n)
        (by simpa using hn) fun m htwo hlt => ?_
      have := hleast (m - 2) (by omega)
      rw [Function.comp_apply, Nat.sub_add_cancel htwo] at this
      simpa using this
  · rename_i hfree
    exact .base fun hmem => hfree (List.contains_iff_mem.mpr hmem)

/-- **A new alias is an identifier.** -/
theorem isIdent_freshAlias (h : IsName fqn.toList) (taken : List String) :
    IsIdent (freshAlias fqn taken).toList := by
  have hbase := isIdent_aliasBase h
  have hfirst := firstFree_freshAlias fqn taken
  generalize aliasBase fqn = base, freshAlias fqn taken = name at hbase hfirst
  cases hfirst with
  | base => exact hbase
  | numbered =>
    rw [String.toList_append]
    exact hbase.append fun c hc => isWordChar_of_mem_toString hc

/-! ## Names of new imports -/

/-- A new import has its short name, if that is not taken, and else an alias that is free. -/
theorem localName_of_planImport {a : Analysis} {f : String} {e : Edit} {aliasName : Option String}
    {n : String} (h : planImport doc a f = .insert e aliasName n) : n ∉ takenNames a := by
  unfold planImport at h
  dsimp only at h
  split at h
  · cases h
  · split at h
    · cases h
    · obtain ⟨-, -, rfl⟩ := ImportOutcome.insert.inj h
      split
      · exact (firstFree_freshAlias _ _).not_mem
      · rename_i hfree
        exact fun hmem => hfree (List.contains_iff_mem.mpr hmem)

/-- The names that are taken are those of the class imports and of the classes that the document
declares. -/
theorem mem_takenNames {n : String} :
    n ∈ takenNames doc.analyze ↔ (∃ d ∈ doc.declarations, d.kind = .cls ∧ d.localName = n) ∨
    n ∈ doc.declaredClasses := by
  have haliases : doc.analyze.aliases = AliasTable.build doc.declarations := rfl
  have hdeclared : doc.analyze.declaredClasses = doc.declaredClasses := rfl
  rw [takenNames, haliases, hdeclared, List.mem_append, mem_names_build, lookup_isSome_iff]
  simp only [Declaration.binds, Bool.and_eq_true, beq_iff_eq]

/-- **Imported names never clash**: whatever is taken, the search for an alias ends with one that is
free, and it is the first choice or has the least number that makes it free. So the name of a
new import is neither that of a class import nor that of a class that the document declares. -/
theorem imported_names_fresh :
    (∀ (fqn : String) (taken : List String), freshAlias fqn taken ∉ taken ∧
      FirstFree (aliasBase fqn) taken (freshAlias fqn taken) ∧
      AliasStem (stripLeading fqn).toList (aliasBase fqn)) ∧
    ∀ (doc : Document) (fqn : String) (e : Edit) (aliasName : Option String) (n : String),
      planImport doc doc.analyze fqn = .insert e aliasName n →
      (∀ d ∈ doc.declarations, d.kind = .cls → d.localName ≠ n) ∧ n ∉ doc.declaredClasses := by
  refine ⟨fun fqn taken => ?_, fun doc fqn e aliasName n hplan => ?_⟩
  · have hfirst := firstFree_freshAlias fqn taken
    exact ⟨hfirst.not_mem, hfirst, aliasStem_aliasBase fqn⟩
  · have hfree := localName_of_planImport hplan
    rw [mem_takenNames, not_or] at hfree
    exact ⟨fun d hd hkind hname => hfree.1 ⟨d, hd, hkind, hname⟩, hfree.2⟩

/-- A text that imports one `Foo` and declares a class with the alias that another one would get
first. -/
def clashingDocument : Document :=
  ⟨"<?php\nuse A\\Foo;\nclass LibFoo \x7b\x7d\n".toList,
    "     \nuse A\\Foo;\nclass LibFoo \x7b\x7d\n".toList⟩

theorem imported_names_fresh_numbered :
    planImport clashingDocument clashingDocument.analyze "Lib\\Foo" =
      .insert (Edit.insert 17 "use Lib\\Foo as LibFoo2;\n") (some "LibFoo2") "LibFoo2" ∧
    (∀ d ∈ clashingDocument.declarations, d.kind = .cls → d.localName ≠ "LibFoo2") ∧
    "LibFoo2" ∉ clashingDocument.declaredClasses := by
  have hplan : planImport clashingDocument clashingDocument.analyze "Lib\\Foo" =
      .insert (Edit.insert 17 "use Lib\\Foo as LibFoo2;\n")
        (some "LibFoo2") "LibFoo2" := by decide +kernel
  exact ⟨hplan, imported_names_fresh.2 _ _ _ _ _ hplan⟩

end UseImports
