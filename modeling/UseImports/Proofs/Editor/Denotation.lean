import UseImports.Proofs.Edit.Planned
import UseImports.Proofs.Editor.Published

/-!
# What edits mean to an editor

An editor is sent ranges of lines and columns (`workspace_edit`) where the server has spans of
bytes. All ends of planned edits are anchors, so the ranges lead back to the spans, and both sides
make the same text of a document.

* `TextEdit.toEdit`, `WorkspaceEdit.applyTo`: what an editor makes of ranges.
* `PlannedFor`: the batches that are planned for a document.
* `Planned.toEdit_textEdits`: **planned edits are told from their ranges.**
* `workspaceEdit_denotes`: the editor and the server agree on every planned batch.
-/

namespace UseImports

variable {cs : List Char} {es : List Edit} {text : String}

/-- The edit that a range means in the text. -/
def TextEdit.toEdit (cs : List Char) (e : TextEdit) : Edit :=
  ⟨⟨offsetAt cs e.range.start, offsetAt cs e.range.stop⟩, e.newText⟩

/-- What an editor makes of the text of the document. -/
def WorkspaceEdit.applyTo (w : WorkspaceEdit) (text : String) : Except EditError String :=
  applyEdits text (w.edits.map (TextEdit.toEdit text.toList))

/-- The line and the column have 32 bits. -/
def Position.IsShort (p : Position) : Prop :=
  p.line < 2 ^ 32 ∧ p.character < 2 ^ 32

/-- In a text of fewer than 2 ^ 32 bytes lines and columns have 32 bits. -/
theorem IsAnchor.isShort {n : Nat} (h : IsAnchor cs n) (hlen : byteLength cs < 2 ^ 32) :
    (position cs n).IsShort :=
  ⟨Nat.lt_of_le_of_lt (position_le h).1 hlen, Nat.lt_of_le_of_lt (position_le h).2 hlen⟩

/-- The edits are planned for the document: they remove or sort its imports, add one or write out
a class name. -/
inductive PlannedFor (doc : Document) : List Edit → Prop
  | removal : PlannedFor doc (planRemoval doc.text doc.analyze)
  | insertion {name : String} {e : Edit} {aliasName : Option String} {localName : String} :
      planImport doc doc.analyze name = .insert e aliasName localName → PlannedFor doc [e]
  | sorting {mode : SortMode} {e : Edit} : planSort doc.text doc.analyze mode = some e →
      PlannedFor doc [e]
  | expansion {short : String} (fqn : String) : IsIdent short.toList →
      PlannedFor doc (expandReferences doc short fqn)

theorem PlannedFor.planned {doc : Document} {m : Mode}
    (hview : viewFrom [] m doc.text = .ok doc.code) (h : PlannedFor doc es) :
    Planned doc.text es := by
  cases h with
  | removal => exact planned_removal (importRow_declarations hview)
  | insertion h => exact planned_insertion h
  | sorting h => exact planned_sort (importRow_declarations hview) h
  | expansion fqn hshort => exact planned_expand hview hshort fqn

namespace Planned

/-- **Planned edits are told from their ranges.** -/
theorem toEdit_textEdits (h : Planned cs es) : (textEdits cs es).map (TextEdit.toEdit cs) = es := by
  rw [textEdits, List.map_map]
  conv_rhs => rw [← List.map_id es]
  refine List.map_congr_left fun e he => ?_
  obtain ⟨hstart, hstop⟩ := h.anchored e he
  simp only [Function.comp_apply, TextEdit.toEdit, range, offsetAt_position hstart,
    offsetAt_position hstop, id_eq]

/-- The ranges of a text of fewer than 2 ^ 32 bytes have lines and columns of 32 bits. -/
theorem isShort (h : Planned cs es) (hlen : byteLength cs < 2 ^ 32) :
    ∀ e ∈ textEdits cs es, e.range.start.IsShort ∧ e.range.stop.IsShort := by
  intro t ht
  obtain ⟨e, he, rfl⟩ := List.mem_map.mp ht
  obtain ⟨hstart, hstop⟩ := h.anchored e he
  exact ⟨hstart.isShort hlen, hstop.isShort hlen⟩

/-- **An editor makes the same of planned edits as the server.** -/
theorem applyTo_workspaceEdit (h : Planned text.toList es) (uri : String) :
    (workspaceEdit uri text.toList es).applyTo text = applyEdits text es := by
  rw [WorkspaceEdit.applyTo, workspaceEdit, h.toEdit_textEdits]

end Planned

/-! ## Sessions -/

namespace Session

variable {s : Session} {uri text' : String}

/-- With a client the edits are sent to it, and the session stays as it is. -/
theorem applyTo_of_client (hclient : s.hasClient = true) (hne : es ≠ [])
    (happlied : applyEdits text es = .ok text') (replies : Replies) :
    s.applyTo replies uri text es =
      .ok ({ session := s, messages := [.applyEdit (workspaceEdit uri text.toList es)] },
        .ok replies.accepts) := by
  rw [applyTo, if_neg (by simpa using hne), happlied]
  dsimp only
  rw [if_pos hclient]

/-- Without a client the new text is stored. -/
theorem document?_applyTo (hclient : s.hasClient = false) (hopen : s.document? uri = some text)
    (happlied : applyEdits text es = .ok text') {replies : Replies} {o : Outcome}
    {verdict : Except EditError Bool} (h : s.applyTo replies uri text es = .ok (o, verdict)) :
    verdict = .ok true ∧ o.session.document? uri = some text' := by
  unfold applyTo at h
  split at h
  next hnone =>
    rw [List.isEmpty_iff.mp hnone, applyEdits_nil] at happlied
    cases h
    cases happlied
    exact ⟨rfl, hopen⟩
  next =>
    rw [happlied, hclient] at h
    obtain ⟨o', ho', heq⟩ := map_ok_iff.mp h
    cases heq
    refine ⟨rfl, ?_⟩
    rw [document?, (refreshed_of_refresh ho').documents_eq]
    exact (document?_store s uri text' uri).trans (if_pos rfl)

/-- Without a client the edits are made, if the new text can be analysed. -/
theorem exists_applyTo (hclient : s.hasClient = false) (happlied : applyEdits text es = .ok text')
    {a : Analysis} (ha : analyze text' = .ok a) (replies : Replies) :
    ∃ o verdict, s.applyTo replies uri text es = .ok (o, verdict) := by
  unfold applyTo
  split
  · exact ⟨_, _, rfl⟩
  · rw [happlied, hclient]
    dsimp only
    have hshown : ∃ ds, shownDiagnostics s.config text' = .ok ds := by
      unfold shownDiagnostics
      split
      · rw [ha]
        exact ⟨_, rfl⟩
      · exact ⟨_, rfl⟩
    have hrefresh : ∃ o, (s.store uri text').refresh uri = .ok o := by
      refine exists_refresh fun text htext => ?_
      rw [document?_store, if_pos rfl] at htext
      exact Option.some.inj htext ▸ hshown
    obtain ⟨o, ho⟩ := hrefresh
    rw [if_neg (by decide), ho]
    exact ⟨_, _, rfl⟩

end Session

open Session in
/-- **The editor and the server agree on every planned edit**: the ranges of a planned batch lead
back to its spans, so that what is sent to a client makes the same text of the document as what is
stored without one. -/
theorem workspaceEdit_denotes {text : String} {doc : Document}
    (h : Document.ofString text = .ok doc) (hlen : byteLength doc.text < 2 ^ 32) {es : List Edit}
    (hes : PlannedFor doc es) :
    (∀ e ∈ textEdits doc.text es, e.range.start.IsShort ∧ e.range.stop.IsShort) ∧
    (textEdits doc.text es).map (TextEdit.toEdit doc.text) = es ∧
    ∃ text', applyEdits text es = .ok text' ∧
      ∀ (s : Session) (replies : Replies) (uri : String), s.document? uri = some text →
        (s.hasClient = true → es ≠ [] →
          s.applyTo replies uri text es =
            .ok ({ session := s, messages := [.applyEdit (workspaceEdit uri doc.text es)] },
              .ok replies.accepts) ∧
          (workspaceEdit uri doc.text es).applyTo text = .ok text') ∧
        (s.hasClient = false →
          (∀ o verdict, s.applyTo replies uri text es = .ok (o, verdict) →
            verdict = .ok true ∧ o.session.document? uri = some text') ∧
          ((analyze text').isOk = true → ∃ o verdict, s.applyTo replies uri text es =
            .ok (o, verdict))) := by
  obtain ⟨code, hcode, rfl⟩ := map_ok_iff.mp h
  have hview : viewFrom [] (startMode text.toList) text.toList = .ok code := hcode
  have hplanned : Planned text.toList es := hes.planned hview
  obtain ⟨text', happlied⟩ := hplanned.applies
  rw [String.ofList_toList] at happlied
  refine ⟨hplanned.isShort hlen, hplanned.toEdit_textEdits, text', happlied,
    fun s replies uri hopen =>
    ⟨fun hclient hne => ?_, fun hclient => ⟨fun o verdict ho => ?_, fun hok => ?_⟩⟩⟩
  · exact ⟨applyTo_of_client hclient hne happlied replies,
      (hplanned.applyTo_workspaceEdit uri).trans happlied⟩
  · exact document?_applyTo hclient hopen happlied ho
  · cases ha : analyze text' with
    | error e =>
      rw [ha] at hok
      cases hok
    | ok a => exact exists_applyTo hclient happlied ha replies

/-- A document with carriage returns, and with a character of two UTF-16 code units in front of a
reference. -/
def astralDocument : Document :=
  ⟨"<?php\r\nuse A\\D;\r\n/*𝒳*/ new D;\r\n".toList,
    "     \r\nuse A\\D;\r\n         new D;\r\n".toList⟩

/-- The reference begins at byte 30 and is sent as column 11. -/
theorem workspaceEdit_denotes_astral :
    textEdits astralDocument.text (expandReferences astralDocument "D" "A\\D") =
        [⟨⟨⟨2, 11⟩, ⟨2, 12⟩⟩, "\\A\\D"⟩] ∧
      (textEdits astralDocument.text (expandReferences astralDocument "D" "A\\D")).map
        (TextEdit.toEdit astralDocument.text) = [⟨⟨30, 31⟩, "\\A\\D"⟩] := by
  obtain ⟨-, hback,
      -⟩ := @workspaceEdit_denotes "<?php\r\nuse A\\D;\r\n/*𝒳*/ new D;\r\n" astralDocument
    (by decide +kernel) (by decide +kernel) _
    (@PlannedFor.expansion astralDocument "D" "A\\D" ⟨by decide, by decide⟩)
  exact ⟨by decide +kernel, hback.trans (by decide +kernel)⟩

end UseImports
