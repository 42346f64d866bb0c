import UseImports.Editor.Protocol
import UseImports.Proofs.Code.View
import UseImports.Uri

/-!
# Published diagnostics

Whatever happens in a session, the diagnostics that it has published last describe the documents as
it has them. Every event leaves the session as it is, or changes the settings, or changes one
document; and it publishes anew what the change bears on (`refresh_diagnostics`,
`refresh_all_diagnostics`, `clear_diagnostics`).

* `Describes`: what diagnostics say of a text under some settings.
* `Transition`, `transition_of_step`: all that an event can do to a session.
* `UpToDate`: exactly the open documents have diagnostics, and these describe their texts.
* `Transition.upToDate`: one event keeps a session up to date.
* `isUri_of_event?`: documents are named by URIs in all that an editor sends.
* `published_upToDate`: **every run keeps it up to date.**
-/

namespace UseImports

variable {name other text uri : String} {s s' : Session} {o : Outcome} {uris : List String}
    {replies : Replies} {edits : List Edit} {verdict : Except EditError Bool} {reader : UriReader}
    {env : Surroundings} {arguments : List Json} {e : Event} {parameters : Json}

/-! ## Runs -/

namespace Event

/-- The document that a notification is about. -/
def document? : Event → Option String
  | .opened uri _ => some uri
  | .changed uri _ => some uri
  | .saved uri _ => some uri
  | .closed uri => some uri
  | _ => none

/-- A session begins. -/
def isStart : Event → Bool
  | .start .. => true
  | _ => false

end Event

/-- An event, with what is found on disk and how the client replies. -/
structure Happening where
  env : Surroundings
  replies : Replies
  event : Event

namespace Session

/-- The session after one event has come behind the other. -/
def run (s : Session) (reader : UriReader) : List Happening → Except MaskError Session
  | [] => .ok s
  | x :: xs => do
    let o ← s.step reader x.env x.replies x.event
    o.session.run reader xs

/-! ## What an event does -/

/-- The diagnostics say of the text what the analysis finds, with the severity of the settings; they
say nothing where the settings turn the analysis or its diagnostics off. -/
def Describes (c : Config) (text : String) (ds : List Diagnostic) : Prop :=
  if c.enableAutoDetect = true ∧ c.showDiagnostics = true then
    ∃ a, analyze text = .ok a ∧ ds = diagnostics text.toList (findings a c.diagnosticSeverity)
  else ds = []

theorem shownDiagnostics_eq_ok_iff {c : Config} {ds : List Diagnostic} :
    shownDiagnostics c text = .ok ds ↔ Describes c text ds := by
  unfold shownDiagnostics Describes
  simp only [Bool.and_eq_true]
  split
  · rw [map_ok_iff]
    exact exists_congr fun a => and_congr_right fun _ => eq_comm
  · exact ⟨fun h => (Except.ok.inj h).symm, fun h => h ▸ rfl⟩

/-- The diagnostics of the document are published anew, if it is open. -/
inductive Refreshed (s : Session) (uri : String) : Session → Prop
  | absent : s.document? uri = none → Refreshed s uri s
  | shown {text : String} {ds : List Diagnostic} : s.document? uri = some text →
      Describes s.config text ds →
      Refreshed s uri { s with published := setEntry s.published uri ds }

/-- The diagnostics of the documents are published anew, one after the other. -/
inductive RefreshedEach : Session → List String → Session → Prop
  | done (s : Session) : RefreshedEach s [] s
  | next {s s' s'' : Session} {uri : String} {uris : List String} : Refreshed s uri s' →
      RefreshedEach s' uris s'' → RefreshedEach s (uri :: uris) s''

/-- What the event can do to the session. -/
inductive Transition (reader : UriReader) (s : Session) : Event → Session → Prop
  | idle (e : Event) : Transition reader s e s
  | start {folders : List String} {uri : Option String} {options : Option Json}
      (root : Option TreePath) (config : Config) :
      Transition reader s (.start folders uri options) { s with root, config }
  | refresh {e : Event} {uri : String} {s' : Session} : Refreshed s uri s' →
      Transition reader s e s'
  | store {e : Event} {uri text : String} {s' : Session} :
      e.document? = some uri ∨ (s.document? uri).isSome = true →
      Refreshed (s.store uri text) uri s' → Transition reader s e s'
  | close (uri : String) : Transition reader s (.closed uri)
      { s with documents := eraseEntry s.documents uri, published := eraseEntry s.published uri }
  | configure {settings : Json} {config : Config} {s' : Session} :
      RefreshedEach { s with config } ({ s with config }.documentUris reader) s' →
      Transition reader s (.configured settings) s'

theorem refreshed_of_refresh (h : s.refresh uri = .ok o) : Refreshed s uri o.session := by
  unfold refresh at h
  split at h
  · rename_i hnone
    cases h
    exact .absent hnone
  · rename_i text hsome
    obtain ⟨ds, hds, rfl⟩ := map_ok_iff.mp h
    exact .shown hsome (shownDiagnostics_eq_ok_iff.mp hds)

/-- The diagnostics of a document are published, if its text can be analysed. -/
theorem exists_refresh
    (h : ∀ text, s.document? uri = some text → ∃ ds, shownDiagnostics s.config text = .ok ds) :
    ∃ o, s.refresh uri = .ok o := by
  unfold refresh
  split
  · exact ⟨_, rfl⟩
  · rename_i text htext
    obtain ⟨ds, hds⟩ := h text htext
    exact ⟨_, map_ok_iff.mpr ⟨ds, hds, rfl⟩⟩

theorem refreshedEach_of_refreshEach (h : s.refreshEach uris = .ok o) :
    RefreshedEach s uris o.session := by
  induction uris generalizing s o with
  | nil =>
    cases h
    exact .done s
  | cons uri uris ih =>
    obtain ⟨first, hfirst, hrest⟩ := bind_ok_iff.mp h
    obtain ⟨rest, huris, hreturn⟩ := bind_ok_iff.mp hrest
    have hsession : o.session = rest.session := by
      cases hreturn
      rfl
    rw [hsession]
    exact .next (refreshed_of_refresh hfirst) (ih huris)

/-- Applying edits leaves the session as it is; without a client the new text of the document may be
stored. -/
theorem applyTo_cases (h : s.applyTo replies uri text edits = .ok (o, verdict)) :
    o.session = s ∨ s.hasClient = false ∧
      ∃ updated, applyEdits text edits = .ok updated ∧
        Refreshed (s.store uri updated) uri o.session := by
  unfold applyTo at h
  split at h
  · cases h
    exact .inl rfl
  · split at h
    · cases h
      exact .inl rfl
    · rename_i updated happlied
      split at h
      · cases h
        exact .inl rfl
      · rename_i hclient
        obtain ⟨o', ho', heq⟩ := map_ok_iff.mp h
        cases heq
        exact .inr ⟨by simpa using hclient, updated, happlied, refreshed_of_refresh ho'⟩

theorem exists_carryOut {applied : Outcome}
    (h : s.applyTo replies uri text edits = .ok (applied, verdict)) (success : String) :
    ∃ o, s.carryOut replies uri text (.edits edits success) = .ok o ∧
      o.session = applied.session := by
  unfold carryOut
  dsimp only
  rw [h]
  refine ⟨_, rfl, ?_⟩
  dsimp only
  split <;> rfl

theorem carryOut_cases {plan : CommandPlan} (h : s.carryOut replies uri text plan = .ok o) :
    o.session = s ∨ s.hasClient = false ∧ ∃ edits success updated, plan = .edits edits success ∧
      applyEdits text edits = .ok updated ∧ Refreshed (s.store uri updated) uri o.session := by
  cases plan with
  | nothing =>
    cases h
    exact .inl rfl
  | notice type notice =>
    cases h
    exact .inl rfl
  | edits edits success =>
    obtain ⟨⟨applied, verdict⟩, happlied, -⟩ := bind_ok_iff.mp h
    obtain ⟨o', ho', hsession⟩ := exists_carryOut happlied success
    cases h.symm.trans ho'
    rw [hsession]
    refine (applyTo_cases happlied).imp_right fun ⟨hclient, updated, hupdated, hrefreshed⟩ => ?_
    exact ⟨hclient, edits, success, updated, rfl, hupdated, hrefreshed⟩

/-- What a command can do to a session: nothing, or to rewrite the open document of its argument by
the edits that are planned on its text. -/
inductive CommandRun (s : Session) (reader : UriReader) (env : Surroundings) (replies : Replies)
    (name : String) (arguments : List Json) : Session → Prop
  | idle : CommandRun s reader env replies name arguments s
  | rewritten {a : CommandArguments} {command : Command} {text updated success : String}
      {edits : List Edit} {asked : List ServerMessage} {s' : Session} : s.hasClient = false →
      CommandArguments.ofArguments? reader arguments = some a →
      Command.ofName? name = some command →
      s.document? a.uri = some text →
      planCommand (s.context env replies) command a text = .ok (asked, .edits edits success) →
      applyEdits text edits = .ok updated → Refreshed (s.store a.uri updated) a.uri s' →
      CommandRun s reader env replies name arguments s'

theorem commandRun_of_runCommand (h : s.runCommand reader env replies name arguments = .ok o) :
    CommandRun s reader env replies name arguments o.session := by
  unfold runCommand at h
  split at h
  · cases h
    exact .idle
  · rename_i a ha
    split at h
    · rename_i text command htext hcommand
      obtain ⟨⟨asked, plan⟩, hplan, hcarried⟩ := bind_ok_iff.mp h
      obtain ⟨o', ho', hreturn⟩ := bind_ok_iff.mp hcarried
      have hsession : o.session = o'.session := by
        cases hreturn
        rfl
      rw [hsession]
      rcases carryOut_cases ho' with hsame |
          ⟨hclient, edits, success, updated, rfl, hupdated, hrefreshed⟩
      · rw [hsame]
        exact .idle
      · exact .rewritten hclient ha hcommand htext hplan hupdated hrefreshed
    · cases h
      exact .idle

theorem CommandRun.transition (h : CommandRun s reader env replies name arguments s') :
    Transition reader s (.command name arguments) s' := by
  cases h with
  | idle => exact .idle _
  | rewritten _ _ _ htext _ _ hrefreshed => exact .store (.inr (by rw [htext]; rfl)) hrefreshed

/-- **All that an event can do to a session.** -/
theorem transition_of_step (h : s.step reader env replies e = .ok o) :
    Transition reader s e o.session := by
  cases e with
  | start folders root options =>
    cases h
    exact .start _ _
  | started =>
    cases h
    exact .idle _
  | shutdown =>
    cases h
    exact .idle _
  | opened uri text => exact .store (.inl rfl) (refreshed_of_refresh h)
  | changed uri texts =>
    cases texts with
    | nil =>
      cases h
      exact .idle _
    | cons text texts => exact .store (.inl rfl) (refreshed_of_refresh h)
  | saved uri text =>
    cases text with
    | none => exact .refresh (refreshed_of_refresh h)
    | some text => exact .store (.inl rfl) (refreshed_of_refresh h)
  | closed uri =>
    cases h
    exact .close uri
  | configured settings =>
    simp only [step, configure] at h
    split at h
    · exact .configure (refreshedEach_of_refreshEach h)
    · cases h
      exact .idle _
  | actions request =>
    simp only [step, offerActions] at h
    split at h
    · cases h
      exact .idle _
    · obtain ⟨doc, -, rfl⟩ := map_ok_iff.mp h
      exact .idle _
  | command name arguments => exact (commandRun_of_runCommand h).transition

/-! ## What stays up to date -/

/-- What is published under the URI describes the document as it is stored; where no document is
open, nothing is published. -/
def CurrentAt (s : Session) (uri : String) : Prop :=
  match s.document? uri with
  | none => s.published.lookup uri = none
  | some text => ∃ ds, s.published.lookup uri = some ds ∧ Describes s.config text ds

theorem CurrentAt.congr (h : CurrentAt s uri) (hdocument : s'.document? uri = s.document? uri)
    (hpublished : s'.published.lookup uri = s.published.lookup uri) (hconfig : s'.config = s.config)
    : CurrentAt s' uri := by
  unfold CurrentAt at h ⊢
  rwa [hdocument, hpublished, hconfig]

theorem document?_store (s : Session) (uri text other : String) :
    (s.store uri text).document? other = if other = uri then some text else s.document? other :=
  lookup_setEntry s.documents uri other text

namespace Refreshed

variable (h : Refreshed s uri s')
include h

theorem documents_eq : s'.documents = s.documents := by
  cases h <;> rfl

theorem config_eq : s'.config = s.config := by
  cases h <;> rfl

theorem root_eq : s'.root = s.root := by
  cases h <;> rfl

theorem hasClient_eq : s'.hasClient = s.hasClient := by
  cases h <;> rfl

theorem lookup_published_of_ne (hne : other ≠ uri) :
    s'.published.lookup other = s.published.lookup other := by
  cases h with
  | absent => rfl
  | shown hdocument hdescribes =>
    dsimp only
    rw [lookup_setEntry, if_neg hne]

/-- The other documents are not touched. -/
theorem currentAt_of_ne (hne : other ≠ uri) (hcurrent : CurrentAt s other) : CurrentAt s' other :=
  hcurrent.congr (congrArg (List.lookup other) h.documents_eq)
    (h.lookup_published_of_ne hne) h.config_eq

/-- The document itself is brought up to date. -/
theorem currentAt (hcurrent : (s.document? uri).isSome = true ∨ CurrentAt s uri) :
    CurrentAt s' uri := by
  cases h with
  | absent hnone =>
    rw [hnone] at hcurrent
    exact hcurrent.resolve_left Bool.false_ne_true
  | @shown text ds hdocument hdescribes =>
    have hdocument' :
        ({ s with published := setEntry s.published uri ds } : Session).document? uri = some text :=
      hdocument
    unfold CurrentAt
    rw [hdocument']
    exact ⟨ds, by rw [lookup_setEntry, if_pos rfl], hdescribes⟩

theorem currentAt_of_current (hcurrent : CurrentAt s other) : CurrentAt s' other := by
  by_cases hother : other = uri
  · subst hother
    exact h.currentAt (.inr hcurrent)
  · exact h.currentAt_of_ne hother hcurrent

end Refreshed

namespace RefreshedEach

theorem documents_eq (h : RefreshedEach s uris s') : s'.documents = s.documents := by
  induction h with
  | done => rfl
  | next hfirst _ ih => exact ih.trans hfirst.documents_eq

/-- A document is up to date when it was, or when it is among those that are published anew. -/
theorem currentAt (h : RefreshedEach s uris s')
    (hcurrent : CurrentAt s uri ∨ (s.document? uri).isSome = true ∧ uri ∈ uris) :
    CurrentAt s' uri := by
  induction h with
  | done => exact hcurrent.elim id fun h => absurd h.2 List.not_mem_nil
  | @next s s' s'' first uris hfirst _ ih =>
    have hdocument : s'.document? uri = s.document? uri :=
      congrArg (List.lookup uri) hfirst.documents_eq
    refine ih ?_
    rcases hcurrent with hcurrent | ⟨hopen, hmem⟩
    · exact .inl (hfirst.currentAt_of_current hcurrent)
    · rcases List.mem_cons.mp hmem with rfl | hmem
      · exact .inl (hfirst.currentAt (.inl hopen))
      · exact .inr ⟨by rw [hdocument]; exact hopen, hmem⟩

end RefreshedEach

/-- Exactly the open documents have published diagnostics, which describe the documents as they are
stored; and all documents have URIs for names. -/
structure UpToDate (reader : UriReader) (s : Session) : Prop where
  current : ∀ uri, CurrentAt s uri
  named : ∀ uri, (s.document? uri).isSome = true → reader.IsUri uri

/-- Every open document is published anew with all of them. -/
theorem mem_documentUris (hopen : (s.document? uri).isSome = true) (huri : reader.IsUri uri) :
    uri ∈ s.documentUris reader := by
  obtain ⟨text, htext⟩ := Option.isSome_iff_exists.mp hopen
  have hmem : (uri, text) ∈ s.documents := by
    obtain ⟨front, back, hsplit, -⟩ := List.lookup_eq_some_iff.mp htext
    rw [hsplit]
    exact List.mem_append_right front List.mem_cons_self
  exact List.mem_filterMap.mpr ⟨(uri, text), hmem, huri⟩

theorem UpToDate.store {uri text : String} (h : UpToDate reader s) (huri : reader.IsUri uri)
    (hrefreshed : Refreshed (s.store uri text) uri s') : UpToDate reader s' where
  current other := by
    by_cases hother : other = uri
    · subst hother
      refine hrefreshed.currentAt (.inl ?_)
      rw [document?_store, if_pos rfl]
      rfl
    · refine hrefreshed.currentAt_of_ne hother ((h.current other).congr ?_ rfl rfl)
      rw [document?_store, if_neg hother]
  named other hopen := by
    have hdocument : s'.document? other = (s.store uri text).document? other :=
      congrArg (List.lookup other) hrefreshed.documents_eq
    rw [hdocument, document?_store] at hopen
    split at hopen
    · rename_i hother
      rwa [hother]
    · exact h.named other hopen

theorem UpToDate.close (h : UpToDate reader s) (uri : String) :
    UpToDate reader { s with
      documents := eraseEntry s.documents uri
      published := eraseEntry s.published uri } where
  current other := by
    by_cases hother : other = uri
    · unfold CurrentAt document?
      dsimp only
      rw [lookup_eraseEntry, if_pos hother, lookup_eraseEntry, if_pos hother]
    · refine (h.current other).congr ?_ ?_ rfl
      · exact (lookup_eraseEntry s.documents uri other).trans (if_neg hother)
      · exact (lookup_eraseEntry s.published uri other).trans (if_neg hother)
  named other hopen := by
    unfold document? at hopen
    dsimp only at hopen
    rw [lookup_eraseEntry] at hopen
    split at hopen
    · cases hopen
    · exact h.named other hopen

theorem UpToDate.configure {config : Config} (h : UpToDate reader s)
    (hrefreshed : RefreshedEach { s with config } ({ s with config }.documentUris reader) s') :
    UpToDate reader s' where
  current uri := by
    have hcurrent := h.current uri
    refine hrefreshed.currentAt ?_
    cases hdocument : s.document? uri with
    | none =>
      -- nothing is published for it, and that does not depend on the settings
      refine .inl ?_
      have hdocument' : ({ s with config } : Session).document? uri = none := hdocument
      unfold CurrentAt at hcurrent ⊢
      rw [hdocument] at hcurrent
      rw [hdocument']
      exact hcurrent
    | some text =>
      have hopen : (s.document? uri).isSome = true := by rw [hdocument]; rfl
      have hopen' : (({ s with config } : Session).document? uri).isSome = true := hopen
      exact .inr ⟨hopen', mem_documentUris hopen' (h.named uri hopen)⟩
  named uri hopen := by
    have hdocument : s'.document? uri = s.document? uri :=
      congrArg (List.lookup uri) hrefreshed.documents_eq
    rw [hdocument] at hopen
    exact h.named uri hopen

theorem UpToDate.of_documents_eq_nil (hdocuments : s.documents = [])
    (hpublished : ∀ uri, s.published.lookup uri = none) : UpToDate reader s where
  current uri := by
    unfold CurrentAt document?
    rw [hdocuments]
    exact hpublished uri
  named uri hopen := by
    unfold document? at hopen
    rw [hdocuments] at hopen
    cases hopen

/-- **One event keeps a session up to date**; a session that begins must have no documents yet. -/
theorem Transition.upToDate (h : Transition reader s e s') (hs : UpToDate reader s)
    (huri : ∀ uri ∈ e.document?, reader.IsUri uri) (hstart : e.isStart = true → s.documents = []) :
    UpToDate reader s' := by
  cases h with
  | idle => exact hs
  | start root config =>
    refine .of_documents_eq_nil (hstart rfl) fun uri => ?_
    have hcurrent := hs.current uri
    unfold CurrentAt document? at hcurrent
    rwa [hstart rfl] at hcurrent
  | @refresh _ uri _ hrefreshed =>
    refine ⟨fun other => hrefreshed.currentAt_of_current (hs.current other), fun other hopen => ?_⟩
    refine hs.named other ?_
    rwa [document?, hrefreshed.documents_eq] at hopen
  | @store _ uri _ _ hopen hrefreshed =>
    exact hs.store (hopen.elim (fun h => huri uri h) fun h => hs.named uri h) hrefreshed
  | close uri => exact hs.close uri
  | configure hrefreshed => exact hs.configure hrefreshed

/-- Documents are opened by notifications alone. -/
theorem Transition.documents_eq_nil (h : Transition reader s e s') (hnone : e.document? = none)
    (hs : s.documents = []) : s'.documents = [] := by
  cases h with
  | idle => exact hs
  | start => exact hs
  | refresh hrefreshed => rw [hrefreshed.documents_eq, hs]
  | store hopen hrefreshed =>
    rw [hnone, document?, hs] at hopen
    rcases hopen with hopen | hopen <;> cases hopen
  | close uri => cases hnone
  | configure hrefreshed => exact hrefreshed.documents_eq.trans hs

/-- A run keeps a session up to date, if no session begins where documents may be open. -/
theorem UpToDate.run {xs : List Happening} (hs : UpToDate reader s)
    (hfresh : s.documents = [] ∨ ∀ x ∈ xs, x.event.isStart = false)
    (hstart : xs.Pairwise fun x y => x.event.document? = none ∨ y.event.isStart = false)
    (huri : ∀ x ∈ xs, ∀ uri ∈ x.event.document?, reader.IsUri uri)
    (hrun : s.run reader xs = .ok s') : UpToDate reader s' := by
  induction xs generalizing s with
  | nil =>
    cases hrun
    exact hs
  | cons x xs ih =>
    obtain ⟨o, ho, hrest⟩ := bind_ok_iff.mp hrun
    have htransition := transition_of_step ho
    obtain ⟨hx, hxs⟩ := List.pairwise_cons.mp hstart
    refine ih (htransition.upToDate hs (huri x List.mem_cons_self) fun hbegin => ?_) ?_ hxs
      (fun y hy => huri y (List.mem_cons_of_mem x hy)) hrest
    · exact hfresh.resolve_right fun h => by rw [h x List.mem_cons_self] at hbegin; cases hbegin
    · -- either no document has been opened yet, or nothing begins any more
      cases hdocument : x.event.document? with
      | none =>
        exact hfresh.imp (htransition.documents_eq_nil hdocument) fun h y hy =>
          h y (List.mem_cons_of_mem x hy)
      | some uri =>
        refine .inr fun y hy => (hx y hy).resolve_left fun h => ?_
        rw [hdocument] at h
        cases h

end Session

/-! ## Messages -/

namespace UriReader.Idempotent

variable (h : reader.Idempotent)
include h

theorem isUri_of_documentUri? (hname : documentUri? reader parameters = some name) :
    reader.IsUri name := by
  simp only [documentUri?, UriReader.ofJson?, Option.bind_eq_bind, Option.bind_eq_some_iff] at hname
  obtain ⟨_, -, _, -, text, -, htext⟩ := hname
  exact h text name htext

/-- **The messages of an editor name documents by URIs**, if normal forms are read as they stand. -/
theorem isUri_of_event? {method : String} (he : event? reader method parameters = some e) :
    ∀ uri ∈ e.document?, reader.IsUri uri := by
  have hnamed : ∀ name, documentUri? reader parameters = some name → e.document? = some name →
      ∀ uri ∈ e.document?, reader.IsUri uri := by
    intro name hname hdocument uri huri
    rw [hdocument] at huri
    cases huri
    exact h.isUri_of_documentUri? hname
  have hother : e.document? = none → ∀ uri ∈ e.document?, reader.IsUri uri := by
    intro hdocument uri huri
    rw [hdocument] at huri
    cases huri
  unfold event? at he
  split at he <;> simp only [startEvent?, actionEvent?, Option.bind_eq_bind,
    Option.bind_eq_some_iff, Option.pure_def, Option.some.injEq, reduceCtorEq] at he
  case h_1 =>
    -- The start of a session is about no document, whatever folders it names.
    split at he <;> simp only [Option.bind_eq_some_iff, Option.some.injEq] at he
    · obtain ⟨_, -, _, -, _, -, rfl⟩ := he
      exact hother rfl
    · obtain ⟨_, -, _, -, _, -, rfl⟩ := he
      exact hother rfl
  case h_2 => exact hother (he ▸ rfl)
  case h_3 => exact hother (he ▸ rfl)
  case h_4 =>
    obtain ⟨_, -, _, -, _, -, name, hname, rfl⟩ := he
    exact hnamed name hname rfl
  case h_5 =>
    obtain ⟨_, -, _, -, _, -, name, hname, rfl⟩ := he
    exact hnamed name hname rfl
  case h_6 =>
    obtain ⟨_, -, name, hname, rfl⟩ := he
    exact hnamed name hname rfl
  case h_7 =>
    obtain ⟨name, hname, rfl⟩ := he
    exact hnamed name hname rfl
  case h_8 => exact hother (he ▸ rfl)
  case h_9 =>
    obtain ⟨_, -, _, -, _, -, _, -, _, -, _, -, _, -, rfl⟩ := he
    exact hother rfl
  case h_10 =>
    obtain ⟨_, -, _, -, _, -, rfl⟩ := he
    exact hother rfl

end UriReader.Idempotent

/-! ## All runs -/

open Session in
/-- **Published diagnostics describe the stored texts**: after every run of a session that begins
before any notification about a document, exactly the open documents have published diagnostics, and
these are the findings in the text as it is stored, under the settings as they are. -/
theorem published_upToDate {reader : UriReader} {s s' : Session} (hdocuments : s.documents = [])
    (hpublished : s.published = []) {xs : List Happening}
    (hstart : xs.Pairwise fun x y => x.event.document? = none ∨ y.event.isStart = false)
    (huri : ∀ x ∈ xs, ∀ uri ∈ x.event.document?, reader.IsUri uri)
    (hrun : s.run reader xs = .ok s') (uri : String) :
    ((s'.published.lookup uri).isSome = true ↔ (s'.document? uri).isSome = true) ∧
      ∀ text ds, s'.document? uri = some text → s'.published.lookup uri = some ds →
        Describes s'.config text ds := by
  have hs : UpToDate reader s := .of_documents_eq_nil hdocuments fun uri => by rw [hpublished]; rfl
  have hcurrent := (hs.run (.inl hdocuments) hstart huri hrun).current uri
  unfold CurrentAt at hcurrent
  split at hcurrent
  · rename_i hnone
    rw [hcurrent, hnone]
    exact ⟨Iff.rfl, fun text ds h => by cases h⟩
  · rename_i text hsome
    obtain ⟨ds, hds, hdescribes⟩ := hcurrent
    rw [hds, hsome]
    refine ⟨⟨fun _ => rfl, fun _ => rfl⟩, fun text' ds' htext hds' => ?_⟩
    cases htext
    cases hds'
    exact hdescribes

/-- A document is opened, the settings change, and the document changes. -/
def editedAfterConfigured : List Happening :=
  [⟨⟨{}, none⟩, {}, .start [] none none⟩,
   ⟨⟨{}, none⟩, {}, .opened "file:///a.php" "<?php\nuse A\\B;\n"⟩,
   ⟨⟨{}, none⟩, {}, .configured (.object [("diagnosticSeverity", .string "Hint")])⟩,
   ⟨⟨{}, none⟩, {}, .changed "file:///a.php" ["<?php\nnew C;\n"]⟩]

open Session in
theorem published_upToDate_edited : ∃ s', Session.run {} Uri.reader editedAfterConfigured = .ok s' ∧
    s'.document? "file:///a.php" = some "<?php\nnew C;\n" ∧
    ∃ ds, s'.published.lookup "file:///a.php" = some ds ∧ ds.length = 1 ∧
      Describes s'.config "<?php\nnew C;\n" ds := by
  refine ⟨_, rfl, rfl, _, rfl, by decide +kernel, ?_⟩
  exact (@published_upToDate Uri.reader {} _ rfl rfl editedAfterConfigured (by decide)
    (by decide +kernel)
    rfl "file:///a.php").2 _ _ rfl rfl

end UseImports
