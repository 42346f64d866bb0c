import UseImports.Proofs.Edit.Aliases
import UseImports.Proofs.Edit.Convergence
import UseImports.Proofs.Edit.Placement

/-!
# Adding an import

A new statement is put in front of a line (`plan_import`). If the text is read as code there, a
statement may begin and no braces are open but those of namespaces, then the statement is an import
of the new text. The imports that the text had are still there, since none of them reaches over the
place.

* `planImport_eq_insert`: what is planned is a plain statement.
* `Receives`, `Lands`: a place where a new statement is read as one.
* `Receives.meanings`: the new text imports what the old one did, and the new name.
* `Lands.foundAgain`: **an import that lands in code is found again.**
-/

namespace UseImports

open Placed Cursor

variable {f n statement : String} {doc : Document} {a : Analysis} {d : Declaration} {e : Edit}
    {aliasName : Option String} {c : Char}

/-! ## The new statement -/

/-- A class import that does not stand anywhere yet. -/
def newImport (fqn : String) (aliasName : Option String) : Declaration where
  fqn := fqn
  aliasName := aliasName
  kind := .cls
  span := ⟨0, 0⟩
  statement := ⟨0, 0⟩
  line := 0
  groupPrefix := none
  sharesStatement := false

theorem plainStatement_newImport_none (f : String) :
    (newImport f none).plainStatement = "use " ++ f ++ ";" := by
  simp [Declaration.plainStatement, newImport, ImportKind.keyword?]

theorem plainStatement_newImport_some (f n : String) :
    (newImport f (some n)).plainStatement = "use " ++ f ++ " as " ++ n ++ ";" := by
  simp [Declaration.plainStatement, newImport, ImportKind.keyword?, String.append_assoc]

theorem stripLeading_of_isName (hf : IsName f.toList) : stripLeading f = f := by
  rw [stripLeading, hf.stripLeading, String.ofList_toList]

theorem planImport_of_classImport? (hf : IsName f.toList)
    (h : classImport? a.declarations f = some d) :
    planImport doc a f = .alreadyImported d.localName := by
  unfold planImport
  rw [stripLeading_of_isName hf]
  dsimp only
  rw [h]

/-- What is planned is a plain statement, under a name that is not taken. -/
theorem planImport_eq_insert (hf : IsName f.toList) (h : planImport doc a f = .insert e aliasName n)
    :
    classImport? a.declarations f = none ∧
    e = insertionEdit doc a (newImport f aliasName).plainStatement ∧
      n = (newImport f aliasName).localName ∧ (newImport f aliasName).WellNamed := by
  unfold planImport at h
  rw [stripLeading_of_isName hf] at h
  dsimp only at h
  split at h
  · cases h
  · rename_i hnone
    split at h
    · cases h
    · obtain ⟨he, halias, hn⟩ := ImportOutcome.insert.inj h
      refine ⟨hnone, ?_, ?_, hf, fun b hb => ?_⟩
      · rw [← he, halias]
        cases aliasName with
        | none => rw [plainStatement_newImport_none]
        | some b => rw [plainStatement_newImport_some]
      · rw [← hn, ← halias]
        rfl
      · rw [newImport, ← halias] at hb
        dsimp only at hb
        split at hb
        · obtain rfl := Option.some.inj hb
          exact isIdent_freshAlias hf _
        · cases hb

/-- A place of the document where a new statement is read as one. In front of the statement stands
the text `P` and white space `W`, which the edit brings along; the text is read as code there and a
statement may begin, inside no braces but those of namespaces. -/
structure Receives (doc : Document) (e : Edit) (P W Q p q : List Char) : Prop where
  text : doc.text = P ++ Q
  code : doc.code = p ++ q
  span : e.span = ⟨byteLength P, byteLength P⟩
  front : ∃ R, e.replacement.toList = W ++ 'u' :: R
  spaces : ∀ c ∈ W, isSpace c = true
  settles : Settles (startMode doc.text) (P ++ W) (p ++ W) .code
  rest : viewFrom [] .code Q = .ok q
  opens : Opens p.reverse
  level : importLevel p p = true

/-- What is put in behind a line brings a line end along, if the text does not end in one. -/
theorem insertAfterLine_cases (cs : List Char) (line : Nat) (content : String) :
    ∃ W, insertAfterLine cs line content = Edit.insert (nextLineStart cs line) (W ++ content) ∧
      (∀ c ∈ W.toList, isSpace c = true) ∧
      (nextLineStart cs line = byteLength cs → (∃ z ∈ cs.getLast?, z ≠ '\n') → W = "\n") := by
  unfold insertAfterLine
  dsimp only
  split
  · exact ⟨"\n", rfl, by decide, fun _ _ => rfl⟩
  · rename_i hcond
    refine ⟨"", by rw [String.empty_append], by simp, fun hstart ⟨z, hz, hne⟩ => absurd ?_ hcond⟩
    have hnil : cs ≠ [] := fun hnil => by
      rw [hnil] at hz
      cases hz
    simp [hstart, hnil, Option.mem_def.mp hz, hne]

theorem isSpace_lineBreak (cs : List Char) : ∀ c ∈ (lineBreak cs).toList, isSpace c = true := by
  unfold lineBreak
  split <;> decide

theorem isBlank_of_mem_indentation {line : List Char} (h : c ∈ indentation line) :
    isBlank c = true :=
  List.mem_takeWhile_imp h

theorem isBlank_of_mem_nextIndent {cs : List Char} {line : Nat} (h : c ∈ nextIndent cs line) :
    isBlank c = true := by
  unfold nextIndent at h
  dsimp only at h
  split at h
  · exact isBlank_of_mem_indentation h
  · cases h

/-- **What is put in is white space, the statement and white space.** -/
theorem insertionEdit_shape (doc : Document) (a : Analysis) (statement : String) :
    ∃ n W Z, insertionEdit doc a statement = Edit.insert n (W ++ statement ++ Z) ∧
      (∀ c ∈ W.toList, isBlank c = true) ∧ ∀ c ∈ Z.toList, isSpace c = true := by
  have hbreak := isSpace_lineBreak doc.text
  -- an insertion behind a line may bring a line end along
  have hline : ∀ line (I Z : String), (∀ c ∈ I.toList, isBlank c = true) →
      (∀ c ∈ Z.toList, isSpace c = true) →
      ∃ n W Z', insertAfterLine doc.text line (I ++ statement ++ Z) =
        Edit.insert n (W ++ statement ++ Z') ∧
        (∀ c ∈ W.toList, isBlank c = true) ∧ ∀ c ∈ Z'.toList, isSpace c = true := by
    intro line I Z hI hZ
    obtain ⟨V, hedit, hV, -⟩ := insertAfterLine_cases doc.text line (I ++ statement ++ Z)
    refine ⟨nextLineStart doc.text line, V ++ I,
      Z, by rw [hedit]; simp only [String.append_assoc], fun c hc => ?_, hZ⟩
    rw [String.toList_append] at hc
    exact (List.mem_append.mp hc).elim (fun hc => isBlank_of_isSpace (hV c hc)) (hI c)
  have hgap : ∀ b : Bool, ∀ c ∈ (lineBreak doc.text ++ if b then lineBreak doc.text else "").toList,
      isSpace c = true := fun b c hc => by
    rw [String.toList_append] at hc
    rcases List.mem_append.mp hc with hc | hc
    · exact hbreak c hc
    · cases b with
      | true => exact hbreak c hc
      | false => cases hc
  unfold insertionEdit
  dsimp only
  split
  · refine hline _ _ _ (fun c hc => ?_) hbreak
    rw [String.toList_ofList] at hc
    exact isBlank_of_mem_indentation hc
  · split
    · rename_i ns _
      have hindent :
          ∀ c ∈ (if ns.braced then
          String.ofList (nextIndent doc.text (lineOf doc.text ns.statement.start + 1))
          else "").toList, isBlank c = true := fun c hc => by
        split at hc
        · rw [String.toList_ofList] at hc
          exact isBlank_of_mem_nextIndent hc
        · cases hc
      unfold insertAfterNamespace
      dsimp only
      split
      · have := hline (lineOf doc.text ns.statement.start + 1) _ _ hindent
          (hgap (lineOf doc.text ns.statement.start + 1 + 1 < lineCount doc.text &&
            !isBlankText (lineText doc.text (lineOf doc.text ns.statement.start + 1 + 1))))
        simpa only [String.append_assoc] using this
      · have := hline (lineOf doc.text ns.statement.start) (lineBreak doc.text ++ _) _
          (fun c hc => by
            rw [String.toList_append] at hc
            exact (List.mem_append.mp hc).elim (fun hc =>
              isBlank_of_isSpace (hbreak c hc)) (hindent c))
          (hgap (lineOf doc.text ns.statement.start + 1 < lineCount doc.text &&
            !(lineText doc.text (lineOf doc.text ns.statement.start + 1)).isEmpty))
        simpa only [String.append_assoc] using this
    · split
      · rename_i tag _
        have := hline (lineOf doc.text tag.start) "" (lineBreak doc.text) (by simp) hbreak
        simpa only [String.empty_append] using this
      · exact ⟨0, "", lineBreak doc.text, by rw [String.empty_append], by simp, hbreak⟩

/-! ## The new text -/

section Received

variable {P W Q p q : List Char}

/-- The statement comes behind the white space that the place is told with. -/
theorem Receives.exists_behind (h : Receives doc e P W Q p q)
    (he : e = insertionEdit doc a d.plainStatement) :
    ∃ Z, e.replacement.toList = W ++ (d.plainStatement.toList ++ Z) ∧
      ∀ c ∈ Z, isSpace c = true := by
  obtain ⟨k, V, Z, hedit, hV, hZ⟩ := insertionEdit_shape doc a d.plainStatement
  obtain ⟨R, hR⟩ := h.front
  have hreplacement : e.replacement.toList = V.toList ++ (d.plainStatement.toList ++ Z.toList) := by
    rw [he, hedit]
    simp only [Edit.insert, String.toList_append, List.append_assoc]
  -- both pieces of white space end where the keyword begins
  have hu : ∀ S : List Char, ('u' :: S).takeWhile isBlank = [] := fun S => by
    rw [List.takeWhile_cons_of_neg (by decide)]
  have hW := congrArg (List.takeWhile isBlank) hR
  rw [List.takeWhile_append_of_pos fun c hc => isBlank_of_isSpace (h.spaces c hc), hu,
    List.append_nil] at hW
  have hV' := congrArg (List.takeWhile isBlank) hreplacement
  rw [List.takeWhile_append_of_pos hV, toList_plainStatement, List.cons_append, hu,
    List.append_nil] at hV'
  exact ⟨Z.toList, by rw [hreplacement, ← hW.symm.trans hV'], hZ⟩

/-- No tag is parted by the place. -/
theorem Receives.hasOpenTag_text (h : Receives doc e P W Q p q)
    (he : e = insertionEdit doc a statement) :
    hasOpenTag doc.text = (hasOpenTag P || hasOpenTag Q) := by
  obtain ⟨l, hspan⟩ := insertionEdit_span doc a statement
  have hstart : lineStart doc.text l = byteLength P :=
    (congrArg Span.start hspan).symm.trans ((congrArg Span.start (he ▸ h.span)))
  obtain ⟨P', hcut, hplace⟩ := exists_fromLine doc.text l
  have hsum := lineStart_add doc.text l
  have hlen := congrArg byteLength hcut
  rw [byteLength_append] at hlen
  obtain ⟨rfl, hQ⟩ := append_eq_append_of_eq (h.text.symm.trans hcut) (by omega)
  rw [← hQ] at hplace
  rw [h.text, hasOpenTag_append]
  have hnone : (P.getLast? == some '<' && Q.head? == some '?') = false := by
    rcases hplace with ⟨-, rfl⟩ | hlast | rfl
    · rfl
    · rw [hlast]
      rfl
    · simp
  rw [hnone, Bool.or_false]

/-- The document with the statement of the declaration put in. -/
def receivedDocument (P W Q p q Z : List Char) (d : Declaration) : Document :=
  ⟨P ++ (W ++ (d.plainStatement.toList ++ (Z ++ Q))),
    p ++ (W ++ (d.plainStatement.toList ++ (Z ++ q)))⟩

variable {Z : List Char}

/-- The edit puts the statement in. -/
theorem Receives.applied (h : Receives doc e P W Q p q)
    (hZ : e.replacement.toList = W ++ (d.plainStatement.toList ++ Z)) :
    applyEdits (String.ofList doc.text) [e] =
      .ok (String.ofList (receivedDocument P W Q p q Z d).text) := by
  have hcut : e.span.cut? doc.text = some (P, [], Q) := by
    have := Span.cut?_append P [] Q
    rw [byteLength_nil, Nat.add_zero, List.nil_append] at this
    rw [h.span, h.text, this]
  have hfits : ∀ x ∈ [e], x.fits doc.text = true := fun x hx => by
    rw [List.mem_singleton.mp hx, Edit.fits, hcut]
    rfl
  rw [applyEdits_of_before (.refl [e]) hfits (List.pairwise_singleton _ _), List.foldr_cons,
    List.foldr_nil, Edit.applyTo, hcut]
  simp only [hZ, receivedDocument, List.append_assoc]

/-- The new text is read as the old one, with the statement put in. -/
theorem Receives.view (h : Receives doc e P W Q p q) (hd : d.WellNamed)
    (hspace : ∀ c ∈ Z, isSpace c = true) (he : e = insertionEdit doc a d.plainStatement) :
    codeView (receivedDocument P W Q p q Z d).text = .ok (receivedDocument P W Q p q Z d).code := by
  have hplain : ∀ c ∈ d.plainStatement.toList ++ Z, isPlain c = true := fun c hc =>
    (List.mem_append.mp hc).elim (fun hc => (hd.plain c hc).1) fun hc =>
      isPlain_of_isSpace (hspace c hc)
  have hread := (h.settles.append (settles_of_isPlain hplain)) Q
  rw [h.rest] at hread
  have htags : hasOpenTag (receivedDocument P W Q p q Z d).text = hasOpenTag doc.text := by
    have hmem : '<' ∉ W ++ (d.plainStatement.toList ++ Z) := fun hmem => by
      rcases List.mem_append.mp hmem with hmem | hmem
      · exact absurd (h.spaces _ hmem) (by decide)
      · exact absurd (hplain _ hmem) (by decide)
    have hhead :
        (P.getLast? == some '<' && (W ++ (d.plainStatement.toList ++ Z) ++ Q).head? == some '?') =
        false := by
      rw [toList_plainStatement]
      cases hW : W with
      | nil => simp
      | cons c W' =>
        have hc : isSpace c = true := h.spaces c (by rw [hW]; exact List.mem_cons_self)
        have hne : c ≠ '?' := fun heq => absurd (heq ▸ hc) (by decide)
        simp [hne]
    have htext : (receivedDocument P W Q p q Z d).text =
        P ++ (W ++ (d.plainStatement.toList ++ Z) ++ Q) := by
      simp only [receivedDocument, List.append_assoc]
    rw [htext, hasOpenTag_append, hhead, Bool.or_false,
      hasOpenTag_append_of_ne fun hlast => hmem (List.mem_of_getLast? hlast),
      hasOpenTag_of_not_mem hmem, Bool.false_or,
      h.hasOpenTag_text he]
  have hstart : startMode (receivedDocument P W Q p q Z d).text = startMode doc.text := by
    rw [startMode, startMode, htags]
  rw [codeView_eq, hstart]
  simp only [receivedDocument, List.append_assoc] at hread ⊢
  exact hread

/-- No import reaches over the place. -/
theorem Receives.uncrossed (h : Receives doc e P W Q p q) (hview : codeView doc.text = .ok doc.code)
    (he : e = insertionEdit doc doc.analyze statement) : Uncrossed doc.code (byteLength p) := by
  have hlength := h.settles.byteLength_eq
  rw [byteLength_append, byteLength_append, Nat.add_right_cancel_iff] at hlength
  have hplanned := uncrossed_insertion hview statement
  rwa [← he, h.span, ← hlength] at hplanned

/-- **The new text imports what the old one did, and the new name.** -/
theorem Receives.meanings (h : Receives doc e P W Q p q)
    (huncrossed : Uncrossed doc.code (byteLength p)) (hd : d.WellNamed) (hkind : d.Legible)
    (hspace : ∀ c ∈ Z, isSpace c = true) :
    doc.declarations.map Declaration.meaning =
        (imports p).map Declaration.meaning ++ (imports q).map Declaration.meaning ∧
      (receivedDocument P W Q p q Z d).declarations.map Declaration.meaning =
        (imports p).map Declaration.meaning ++ d.meaning ::
        (imports q).map Declaration.meaning := by
  have hstatement := hd.isStatement hkind
  have hW := Run.of_space h.spaces
  have hZ := Run.of_space hspace
  have hdivides : Divides p q := divides_of_uncrossed h.opens h.level (h.code ▸ huncrossed)
  constructor
  · rw [map_meaning_declarations, h.code, hdivides.apart, List.map_append, List.map_map]
    rfl
  · rw [map_meaning_declarations]
    change (imports (p ++ (W ++ (d.plainStatement.toList ++ (Z ++ q))))).map Declaration.meaning = _
    rw [(divides_of_statement h.opens h.level h.spaces hstatement (Z ++ q)).apart,
      imports_append hW.importPlace,
      imports_of_isSpace h.spaces, imports_append hstatement.importPlace,
      imports_append hZ.importPlace,
      imports_of_isSpace hspace]
    simp only [List.map_append, List.nil_append, List.map_map, Function.comp_def,
      Declaration.meaning_shift]
    have hmeaning := hd.meaning_imports hkind
    rw [show (imports d.plainStatement.toList).map (fun x => x.meaning) = [d.meaning] from hmeaning]
    rfl

/-! ## The import is found -/

theorem localName_eq_of_meaning_eq {d' : Declaration} (h : d.meaning = d'.meaning) :
    d.localName = d'.localName := by
  have hfqn : d.fqn = d'.fqn := congrArg Prod.fst h
  have halias : d.aliasName = d'.aliasName := congrArg (fun m => m.2.1) h
  rw [Declaration.localName, Declaration.localName, hfqn, halias]

/-- The import that is found is the new one, since there was none before. -/
theorem classImport?_of_meanings {ds ds' : List Declaration}
    {before after : List (String × Option String × ImportKind)} (hnone : classImport? ds f = none)
    (hds : ds.map Declaration.meaning = before ++ after)
    (hds' : ds'.map Declaration.meaning = before ++ (newImport f aliasName).meaning :: after) :
    ∃ d, classImport? ds' f = some d ∧ d.localName = (newImport f aliasName).localName := by
  have hold : ∀ m ∈ before ++ after, ¬ (m.2.2 = ImportKind.cls ∧ m.1 = f) := by
    rw [← hds]
    intro m hm
    obtain ⟨d, hd, rfl⟩ := List.mem_map.mp hm
    have hnot : d.kind = .cls → ¬ d.fqn = f := by
      simpa using List.find?_eq_none.mp hnone d (List.mem_reverse.mpr hd)
    exact fun hclass => hnot hclass.1 hclass.2
  cases hfound : classImport? ds' f with
  | none =>
    exfalso
    obtain ⟨d, hd, hmeaning⟩ : ∃ d ∈ ds', d.meaning = (newImport f aliasName).meaning := by
      rw [← List.mem_map, hds']
      simp
    have hnot := List.find?_eq_none.mp hfound d (List.mem_reverse.mpr hd)
    have hfqn : d.fqn = f := congrArg Prod.fst hmeaning
    have hkind : d.kind = .cls := congrArg (fun m => m.2.2) hmeaning
    rw [hfqn, hkind] at hnot
    exact hnot (by simp)
  | some d =>
    refine ⟨d, rfl, localName_eq_of_meaning_eq ?_⟩
    have hclass : d.kind = .cls ∧ d.fqn = f := by simpa using List.find?_some hfound
    have hmem : d.meaning ∈ ds'.map Declaration.meaning :=
      List.mem_map_of_mem (List.mem_reverse.mp (List.mem_of_find?_eq_some hfound))
    rw [hds', List.mem_append, List.mem_cons] at hmem
    rcases hmem with hmem | heq | hmem
    · exact absurd hclass (hold _ (List.mem_append_left _ hmem))
    · exact heq
    · exact absurd hclass (hold _ (List.mem_append_right _ hmem))

end Received

/-- The edit puts a statement where it is read as one. -/
def Lands (doc : Document) (e : Edit) : Prop :=
  ∃ P W Q p q, Receives doc e P W Q p q

/-- The edit to the text is applied. The plan for the new text is that the class is imported under
the name `n`, and the new text imports what the old one did, in the same order, and the class. -/
def FoundAgain (text : String) (doc : Document) (e : Edit) (f : String) (aliasName : Option String)
    (n : String) : Prop :=
  ∃ text' doc', applyEdits text [e] = .ok text' ∧ Document.ofString text' = .ok doc' ∧
    planImport doc' doc'.analyze f = .alreadyImported n ∧
    ∃ before after, doc.declarations.map Declaration.meaning = before ++ after ∧
      doc'.declarations.map Declaration.meaning = before ++ (f, aliasName, .cls) :: after

/-- **An import that lands in code is found again.** -/
theorem Lands.foundAgain {text : String} (hlands : Lands doc e)
    (h : Document.ofString text = .ok doc) (hf : IsName f.toList)
    (hplan : planImport doc doc.analyze f = .insert e aliasName n)
    (hword : isKindWord f.toList = true → aliasName = none) :
    FoundAgain text doc e f aliasName n := by
  obtain ⟨code, hcode, rfl⟩ := map_ok_iff.mp h
  obtain ⟨P, W, Q, p, q, hplace⟩ := hlands
  obtain ⟨hnone, he, hn, hnamed⟩ := planImport_eq_insert hf hplan
  obtain ⟨Z, hZ, hspace⟩ := hplace.exists_behind he
  have happlied := hplace.applied hZ
  rw [String.ofList_toList] at happlied
  have hview := hplace.view hnamed hspace he
  obtain ⟨hbefore, hafter⟩ :=
    hplace.meanings (hplace.uncrossed hcode he) hnamed (fun _ => hword) hspace
  obtain ⟨d, hd, hlocal⟩ := classImport?_of_meanings hnone hbefore hafter
  refine ⟨_, receivedDocument P W Q p q Z (newImport f aliasName), happlied, ?_, ?_, _, _,
    hbefore, hafter⟩
  · rw [Document.ofString, Document.ofText, String.toList_ofList, hview]
    rfl
  · rw [hn, ← hlocal]
    exact planImport_of_classImport? hf hd

end UseImports
