import UseImports.Proofs.Editor.Denotation
import UseImports.Proofs.Workspace

/-!
# What commands do

A command (`execute_command`) is planned on the text of its document before anything happens. It may
come to nothing, for one of a number of reasons, and then the session stays as it is; or it comes to
edits, which are sent to the client or made at once in its own document and nowhere else.

* `Identifies`, `Unidentified`: the class that an import is about, or why there is none.
* `CommandEdits`, `Refuses`: the edits that a command comes to, or why it comes to none.
* `edits?_planOn`, `Refuses.edits?_planOn`: **the plan of a command has these edits and no others.**
* `ComesTo`, `Idle`: the same of a command in a session.
* `runCommand_cases`, `Idle.exists_runCommand`: all that a command does to a session.
* `commands_atomic`: **commands are atomic and local.**
-/

namespace UseImports

variable {plan : CommandPlan} {es : List Edit} {text updated uri : String} {command : Command}
    {doc : Document} {a : CommandArguments}

/-! ## The class of an import -/

/-- The import is about the class of this full name: the one that is given in full, the one that is
found in the workspace, or the one that is chosen among several. -/
inductive Identifies (ctx : CommandContext) (doc : Document) (requested : String) : String → Prop
  | qualified : requested.toList.contains '\\' = true → Identifies ctx doc requested requested
  | found {source : FileSource} {c : Candidate} : requested.toList.contains '\\' = false →
      doc.analyze.aliases.contains .cls (shortName requested) = false → ctx.source = some source →
      resolveClass source (shortName requested) ctx.config.exclude = .ok (.found c) →
      Identifies ctx doc requested c.fqn
  | chosen {source : FileSource} {cs : List Candidate} {c : Candidate} :
      requested.toList.contains '\\' = false →
      doc.analyze.aliases.contains .cls (shortName requested) = false → ctx.source = some source →
      resolveClass source (shortName requested) ctx.config.exclude = .ok (.needsChoice cs) →
      ctx.hasClient = true → choose cs ctx.choice = .found c → Identifies ctx doc requested c.fqn

/-- There is no class to import: the short name is bound, there is no workspace, no file declares
the class, the search fails, or several files declare it and the user chooses none of them. -/
inductive Unidentified (ctx : CommandContext) (doc : Document) (requested : String) : Prop
  | bound : requested.toList.contains '\\' = false →
      doc.analyze.aliases.contains .cls (shortName requested) = true →
      Unidentified ctx doc requested
  | noWorkspace : requested.toList.contains '\\' = false → ctx.source = none →
      Unidentified ctx doc requested
  | notFound {source : FileSource} : requested.toList.contains '\\' = false →
      ctx.source = some source →
      resolveClass source (shortName requested) ctx.config.exclude = .ok .notFound →
      Unidentified ctx doc requested
  | unreadable {source : FileSource} {e : MaskError} : requested.toList.contains '\\' = false →
      ctx.source = some source →
      resolveClass source (shortName requested) ctx.config.exclude = .error e →
      Unidentified ctx doc requested
  | ambiguous {source : FileSource} {cs : List Candidate} : requested.toList.contains '\\' = false →
      ctx.source = some source →
      resolveClass source (shortName requested) ctx.config.exclude = .ok (.needsChoice cs) →
      (ctx.hasClient = true → ∀ c ∈ cs, ctx.choice ≠ some c.fqn) → Unidentified ctx doc requested

/-! ## The plan of a command -/

/-- The edits that a command comes to. -/
inductive CommandEdits (ctx : CommandContext) (a : CommandArguments) (doc : Document) :
    Command → List Edit → Prop
  | removal : doc.analyze.unused ≠ [] →
      CommandEdits ctx a doc .removeUnusedImports (planRemoval doc.text doc.analyze)
  | sorting {e : Edit} : planSort doc.text doc.analyze ctx.config.sortMode = some e →
      CommandEdits ctx a doc .sortImports [e]
  | expansion {requested : String} {binding : Binding} : targetName? a doc.text = some requested →
      doc.analyze.aliases.get? .cls (shortName requested) = some binding →
      CommandEdits ctx a doc .expandClassName
        (expandReferences doc (shortName requested) binding.fqn)
  | insertion {requested fqn localName : String} {e : Edit} {aliasName : Option String} :
      targetName? a doc.text = some requested → Identifies ctx doc requested fqn →
      planImport doc doc.analyze fqn = .insert e aliasName localName →
      CommandEdits ctx a doc .importClass [e]

/-- Why a command comes to no edits: nothing is unused, the imports are sorted, it names no class,
the class is not imported, there is no class to import, or it is imported already or needs no
import. -/
inductive Refuses (ctx : CommandContext) (a : CommandArguments) (doc : Document) : Command → Prop
  | nothingUnused : doc.analyze.unused = [] → Refuses ctx a doc .removeUnusedImports
  | sorted : planSort doc.text doc.analyze ctx.config.sortMode = none →
      Refuses ctx a doc .sortImports
  | nothingToExpand : targetName? a doc.text = none → Refuses ctx a doc .expandClassName
  | notImported {requested : String} : targetName? a doc.text = some requested →
      doc.analyze.aliases.get? .cls (shortName requested) = none →
      Refuses ctx a doc .expandClassName
  | nothingToImport : targetName? a doc.text = none → Refuses ctx a doc .importClass
  | unidentified {requested : String} : targetName? a doc.text = some requested →
      Unidentified ctx doc requested → Refuses ctx a doc .importClass
  | alreadyImported {requested fqn localName : String} : targetName? a doc.text = some requested →
      Identifies ctx doc requested fqn → planImport doc doc.analyze fqn =
        .alreadyImported localName →
      Refuses ctx a doc .importClass
  | notNeeded {requested fqn : String} : targetName? a doc.text = some requested →
      Identifies ctx doc requested fqn → planImport doc doc.analyze fqn = .notNeeded →
      Refuses ctx a doc .importClass

/-- The edits of a plan, if it has some. -/
def CommandPlan.edits? : CommandPlan → Option (List Edit)
  | .edits es _ => some es
  | _ => none

theorem CommandPlan.edits?_eq_some_iff :
    plan.edits? = some es ↔ ∃ success, plan = .edits es success := by
  cases plan <;> simp [edits?]

section Plans

variable {ctx : CommandContext} {requested fqn : String}

theorem edits?_planImportOf {className : String} {parent : Option String} :
    (planImportOf doc className fqn parent).edits? = some es ↔
      ∃ e aliasName localName, planImport doc doc.analyze fqn =
        .insert e aliasName localName ∧ es = [e] := by
  unfold planImportOf
  cases planImport doc doc.analyze fqn <;> simp [CommandPlan.edits?, eq_comm]

theorem planImportCommand_of_identifies (h : Identifies ctx doc requested fqn) :
    ∃ parent, (planImportCommand ctx doc requested).2 =
      planImportOf doc (shortName requested) fqn parent := by
  unfold planImportCommand
  cases h with
  | qualified hname =>
    rw [if_pos hname]
    exact ⟨_, rfl⟩
  | @found source c hname hbound hsource hfound =>
    rw [if_neg (by simpa using hname), if_neg (by simpa using hbound)]
    exact ⟨c.parent, by simp only [planSearchedImport, hsource, hfound]⟩
  | @chosen source cs c hname hbound hsource hfound hclient hchosen =>
    rw [if_neg (by simpa using hname), if_neg (by simpa using hbound)]
    refine ⟨c.parent, ?_⟩
    simp only [planSearchedImport, hsource, hfound, askForCandidate, if_pos hclient, hchosen]

/-- The import is about some class, or it comes to no edits. -/
theorem planImportCommand_cases (ctx : CommandContext) (doc : Document) (requested : String) :
    (∃ fqn, Identifies ctx doc requested fqn) ∨
    (planImportCommand ctx doc requested).2.edits? = none := by
  by_cases hname : requested.toList.contains '\\' = true
  · exact .inl ⟨_, .qualified hname⟩
  unfold planImportCommand
  rw [if_neg hname]
  rw [Bool.not_eq_true] at hname
  split
  · exact .inr rfl
  · rename_i hbound
    rw [Bool.not_eq_true] at hbound
    unfold planSearchedImport
    cases hsource : ctx.source with
    | none => exact .inr rfl
    | some source =>
      dsimp only
      cases hfound : resolveClass source (shortName requested) ctx.config.exclude with
      | error e => exact .inr rfl
      | ok r =>
        cases r with
        | found c => exact .inl ⟨_, .found hname hbound hsource hfound⟩
        | notFound => exact .inr rfl
        | cancelled => exact .inr rfl
        | needsChoice cs =>
          dsimp only
          by_cases hclient : ctx.hasClient = true
          · rcases choose_cases cs ctx.choice with hchosen | ⟨c, hchosen⟩
            · rw [askForCandidate, if_pos hclient, hchosen]
              exact .inr rfl
            · exact .inl ⟨_, .chosen hname hbound hsource hfound hclient hchosen⟩
          · rw [askForCandidate, if_neg hclient]
            exact .inr rfl

theorem edits?_of_unidentified (h : Unidentified ctx doc requested) :
    (planImportCommand ctx doc requested).2.edits? = none := by
  have hsearch : (planSearchedImport ctx doc (shortName requested)).2.edits? = none →
      requested.toList.contains '\\' = false →
      (planImportCommand ctx doc requested).2.edits? = none := by
    intro hnone hname
    unfold planImportCommand
    rw [if_neg (by simpa using hname)]
    split
    · rfl
    · exact hnone
  cases h with
  | bound hname hbound =>
    unfold planImportCommand
    rw [if_neg (by simpa using hname), if_pos hbound]
    rfl
  | noWorkspace hname hsource =>
    exact hsearch (by simp only [planSearchedImport, hsource, CommandPlan.edits?]) hname
  | notFound hname hsource hfound =>
    exact hsearch (by simp only [planSearchedImport, hsource, hfound, CommandPlan.edits?]) hname
  | unreadable hname hsource hfound =>
    exact hsearch (by simp only [planSearchedImport, hsource, hfound, CommandPlan.edits?]) hname
  | @ambiguous source cs hname hsource hfound hchoice =>
    have hasked : (askForCandidate ctx (shortName requested) cs).2 = .cancelled := by
      unfold askForCandidate
      split
      · rename_i hclient
        exact choose_eq_cancelled_iff.mpr (.inr (hchoice hclient))
      · rfl
    exact hsearch
      (by simp only [planSearchedImport, hsource, hfound, hasked, CommandPlan.edits?]) hname

theorem edits?_planRemovalCommand (doc : Document) :
    (planRemovalCommand doc).edits? =
      if doc.analyze.unused = [] then none else some (planRemoval doc.text doc.analyze) := by
  unfold planRemovalCommand
  dsimp only
  by_cases hunused : doc.analyze.unused = []
  · rw [if_pos hunused, if_pos (by simpa using hunused)]
    rfl
  · rw [if_neg hunused, if_neg (by simpa using hunused)]
    rfl

theorem edits?_planSortCommand (doc : Document) (mode : SortMode) :
    (planSortCommand doc mode).edits? = (planSort doc.text doc.analyze mode).map fun e => [e] := by
  unfold planSortCommand
  split <;> rename_i h <;> rw [h] <;> rfl

theorem edits?_planExpandCommand (doc : Document) (requested : String) :
    (planExpandCommand doc requested).edits? =
      (doc.analyze.aliases.get? .cls (shortName requested)).map fun b =>
        expandReferences doc (shortName requested) b.fqn := by
  unfold planExpandCommand
  dsimp only
  split <;> rename_i h <;> rw [h] <;> rfl

theorem edits?_planImportCommand :
    (planImportCommand ctx doc requested).2.edits? = some es ↔
      ∃ fqn e aliasName localName, Identifies ctx doc requested fqn ∧
        planImport doc doc.analyze fqn = .insert e aliasName localName ∧ es = [e] := by
  constructor
  · intro h
    rcases planImportCommand_cases ctx doc requested with ⟨fqn, hfqn⟩ | hnone
    · obtain ⟨parent, hplan⟩ := planImportCommand_of_identifies hfqn
      rw [hplan] at h
      obtain ⟨e, aliasName, localName, hinsert, rfl⟩ := edits?_planImportOf.mp h
      exact ⟨fqn, e, aliasName, localName, hfqn, hinsert, rfl⟩
    · rw [hnone] at h
      cases h
  · rintro ⟨fqn, e, aliasName, localName, hfqn, hinsert, rfl⟩
    obtain ⟨parent, hplan⟩ := planImportCommand_of_identifies hfqn
    rw [hplan]
    exact edits?_planImportOf.mpr ⟨e, aliasName, localName, hinsert, rfl⟩

/-- Nothing is inserted for a class that is imported or needs no import. -/
theorem edits?_of_identifies (h : Identifies ctx doc requested fqn)
    (hplan : ∀ e aliasName localName,
      planImport doc doc.analyze fqn ≠ .insert e aliasName localName) :
    (planImportCommand ctx doc requested).2.edits? = none := by
  obtain ⟨parent, hparent⟩ := planImportCommand_of_identifies h
  rw [hparent]
  refine Option.eq_none_iff_forall_ne_some.mpr fun es hes => ?_
  obtain ⟨e, aliasName, localName, hinsert, -⟩ := edits?_planImportOf.mp hes
  exact hplan e aliasName localName hinsert

/-- The plan of a command on a document. -/
def planOn (ctx : CommandContext) (a : CommandArguments) (doc : Document) :
    Command → List ServerMessage × CommandPlan
  | .removeUnusedImports => ([], planRemovalCommand doc)
  | .sortImports => ([], planSortCommand doc ctx.config.sortMode)
  | .expandClassName => ([], (targetName? a doc.text).elim .nothing (planExpandCommand doc))
  | .importClass =>
    (targetName? a doc.text).elim ([], .notice .warning "No class name at cursor!")
    (planImportCommand ctx doc)

theorem text_of_ofString (h : Document.ofString text = .ok doc) : doc.text = text.toList := by
  obtain ⟨code, -, rfl⟩ := map_ok_iff.mp h
  rfl

theorem planCommand_eq (h : Document.ofString text = .ok doc) :
    planCommand ctx command a text = .ok (planOn ctx a doc command) := by
  have htext := text_of_ofString h
  cases command with
  | removeUnusedImports => rw [planCommand, h]; rfl
  | sortImports => rw [planCommand, h]; rfl
  | expandClassName =>
    rw [planCommand, h, planOn, htext]
    cases targetName? a text.toList <;> rfl
  | importClass =>
    rw [planCommand, h, planOn, htext]
    cases targetName? a text.toList <;> rfl

/-- **The edits of the plan are those that the command comes to.** -/
theorem edits?_planOn :
    (planOn ctx a doc command).2.edits? = some es ↔ CommandEdits ctx a doc command es := by
  constructor
  · intro h
    cases command with
    | removeUnusedImports =>
      rw [planOn, edits?_planRemovalCommand, Option.ite_none_left_eq_some] at h
      obtain ⟨hunused, hes⟩ := h
      exact Option.some.inj hes ▸ .removal hunused
    | sortImports =>
      rw [planOn, edits?_planSortCommand] at h
      obtain ⟨e, he, rfl⟩ := Option.map_eq_some_iff.mp h
      exact .sorting he
    | expandClassName =>
      rw [planOn] at h
      cases htarget : targetName? a doc.text with
      | none =>
        rw [htarget] at h
        cases h
      | some requested =>
        rw [htarget, Option.elim_some, edits?_planExpandCommand] at h
        obtain ⟨binding, hbinding, rfl⟩ := Option.map_eq_some_iff.mp h
        exact .expansion htarget hbinding
    | importClass =>
      rw [planOn] at h
      cases htarget : targetName? a doc.text with
      | none =>
        rw [htarget] at h
        cases h
      | some requested =>
        rw [htarget, Option.elim_some] at h
        obtain ⟨fqn, e, aliasName, localName, hfqn, hinsert, rfl⟩ := edits?_planImportCommand.mp h
        exact .insertion htarget hfqn hinsert
  · intro h
    cases h with
    | removal hunused => rw [planOn, edits?_planRemovalCommand, if_neg hunused]
    | sorting he => rw [planOn, edits?_planSortCommand, he, Option.map_some]
    | expansion htarget hbinding =>
      rw [planOn, htarget, Option.elim_some, edits?_planExpandCommand, hbinding, Option.map_some]
    | insertion htarget hfqn hinsert =>
      rw [planOn, htarget, Option.elim_some]
      exact edits?_planImportCommand.mpr ⟨_, _, _, _, hfqn, hinsert, rfl⟩

theorem Refuses.edits?_planOn (h : Refuses ctx a doc command) :
    (planOn ctx a doc command).2.edits? = none := by
  cases h with
  | nothingUnused hunused => rw [planOn, edits?_planRemovalCommand, if_pos hunused]
  | sorted hsorted => rw [planOn, edits?_planSortCommand, hsorted, Option.map_none]
  | nothingToExpand htarget =>
    rw [planOn, htarget]
    rfl
  | notImported htarget hnone =>
    rw [planOn, htarget, Option.elim_some, edits?_planExpandCommand, hnone, Option.map_none]
  | nothingToImport htarget =>
    rw [planOn, htarget]
    rfl
  | unidentified htarget hnone =>
    rw [planOn, htarget, Option.elim_some]
    exact edits?_of_unidentified hnone
  | alreadyImported htarget hfqn hplan =>
    rw [planOn, htarget, Option.elim_some]
    exact edits?_of_identifies hfqn (by simp [hplan])
  | notNeeded htarget hfqn hplan =>
    rw [planOn, htarget, Option.elim_some]
    exact edits?_of_identifies hfqn (by simp [hplan])

end Plans

/-! ## Sessions -/

namespace Session

variable {s s' : Session} {reader : UriReader} {env : Surroundings} {replies : Replies}
    {name : String} {arguments : List Json} {o : Outcome}

/-- The command comes to edits of the open document of its argument. -/
inductive ComesTo (s : Session) (reader : UriReader) (env : Surroundings) (replies : Replies)
    (name : String) (arguments : List Json) :
    CommandArguments → String → List Edit → Prop
  | mk {a : CommandArguments} {command : Command} {text : String} {doc : Document}
      {es : List Edit} :
      CommandArguments.ofArguments? reader arguments = some a → s.document? a.uri = some text →
      Command.ofName? name = some command → Document.ofString text = .ok doc →
      CommandEdits (s.context env replies) a doc command es →
      ComesTo s reader env replies name arguments a text es

/-- Why a command changes nothing: it has no valid arguments, its document is not open, it is
unknown, it comes to no edits, or its edits cannot be applied. -/
inductive Idle (s : Session) (reader : UriReader) (env : Surroundings) (replies : Replies)
    (name : String) (arguments : List Json) : Prop
  | invalid : CommandArguments.ofArguments? reader arguments = none →
      Idle s reader env replies name arguments
  | notOpen {a : CommandArguments} : CommandArguments.ofArguments? reader arguments = some a →
      s.document? a.uri = none →
      Idle s reader env replies name arguments
  | unknown : Command.ofName? name = none → Idle s reader env replies name arguments
  | refused {a : CommandArguments} {command : Command} {text : String} {doc : Document} :
      CommandArguments.ofArguments? reader arguments = some a → s.document? a.uri = some text →
      Command.ofName? name = some command → Document.ofString text = .ok doc →
      Refuses (s.context env replies) a doc command → Idle s reader env replies name arguments
  | failed {a : CommandArguments} {text : String} {es : List Edit} {e : EditError} :
      ComesTo s reader env replies name arguments a text es → applyEdits text es = .error e →
      Idle s reader env replies name arguments

/-- The sessions differ in the document of this URI at most, and in what is published for it. -/
structure SameApartFrom (uri : String) (s s' : Session) : Prop where
  config_eq : s'.config = s.config
  root_eq : s'.root = s.root
  hasClient_eq : s'.hasClient = s.hasClient
  document?_eq : ∀ other, other ≠ uri → s'.document? other = s.document? other
  published_eq : ∀ other, other ≠ uri → s'.published.lookup other = s.published.lookup other

theorem SameApartFrom.refl (uri : String) (s : Session) : SameApartFrom uri s s :=
  ⟨rfl, rfl, rfl, fun _ _ => rfl, fun _ _ => rfl⟩

/-- A command on an open document carries out its plan. -/
theorem runCommand_eq (ha : CommandArguments.ofArguments? reader arguments = some a)
    (htext : s.document? a.uri = some text) (hcommand : Command.ofName? name = some command)
    (hdoc : Document.ofString text = .ok doc)
    (hplan : (planOn (s.context env replies) a doc command).2 = plan) :
    s.runCommand reader env replies name arguments =
      (s.carryOut replies a.uri text plan).map fun o =>
        { o with messages := (planOn (s.context env replies) a doc command).1 ++ o.messages } := by
  subst hplan
  unfold runCommand
  rw [ha]
  dsimp only
  rw [htext, hcommand]
  dsimp only
  rw [planCommand_eq hdoc]
  rfl

theorem exists_carryOut_of_edits?_eq_none (s : Session) (replies : Replies) (h : plan.edits? = none)
    (uri text : String) : ∃ o, s.carryOut replies uri text plan = .ok o ∧ o.session = s := by
  cases plan with
  | nothing => exact ⟨_, rfl, rfl⟩
  | notice type notice => exact ⟨_, rfl, rfl⟩
  | edits es success => cases h

/-- Edits that cannot be applied change nothing, and neither do edits that are sent to a client. -/
theorem exists_applyTo_eq (h : (applyEdits text es).isOk = false ∨ s.hasClient = true) :
    ∃ applied verdict, s.applyTo replies uri text es = .ok (applied, verdict) ∧
      applied.session = s := by
  unfold applyTo
  split
  · exact ⟨_, _, rfl, rfl⟩
  · cases happlied : applyEdits text es with
    | error e => exact ⟨_, _, rfl, rfl⟩
    | ok updated =>
      dsimp only
      rw [if_pos (h.resolve_left (by simp [happlied, Except.isOk, Except.toBool]))]
      exact ⟨_, _, rfl, rfl⟩

/-- A command that comes to edits tells what becomes of them. -/
theorem ComesTo.exists_runCommand_eq (h : ComesTo s reader env replies name arguments a text es) :
    ∃ asked success, s.runCommand reader env replies name arguments =
      (s.carryOut replies a.uri text (.edits es success)).map fun o =>
      { o with messages := asked ++ o.messages } := by
  cases h with
  | mk ha htext hcommand hdoc hedits =>
    obtain ⟨success, hplan⟩ := CommandPlan.edits?_eq_some_iff.mp (edits?_planOn.mpr hedits)
    exact ⟨_, success, runCommand_eq ha htext hcommand hdoc hplan⟩

theorem ComesTo.exists_runCommand (h : ComesTo s reader env replies name arguments a text es)
    {applied : Outcome} {verdict : Except EditError Bool}
    (happlied : s.applyTo replies a.uri text es = .ok (applied, verdict)) :
    ∃ o, s.runCommand reader env replies name arguments = .ok o ∧ o.session = applied.session := by
  obtain ⟨asked, success, hrun⟩ := h.exists_runCommand_eq
  obtain ⟨o, ho, hsession⟩ := exists_carryOut happlied success
  rw [hrun, ho]
  exact ⟨_, rfl, hsession⟩

theorem ComesTo.exists_applyTo (h : ComesTo s reader env replies name arguments a text es)
    (ho : s.runCommand reader env replies name arguments = .ok o) :
    ∃ applied verdict, s.applyTo replies a.uri text es = .ok (applied, verdict) ∧
      o.session = applied.session := by
  obtain ⟨asked, success, hrun⟩ := h.exists_runCommand_eq
  rw [hrun] at ho
  obtain ⟨o', ho', rfl⟩ := map_ok_iff.mp ho
  obtain ⟨⟨applied, verdict⟩, happlied, -⟩ := bind_ok_iff.mp ho'
  obtain ⟨o'', ho'', hsession⟩ := exists_carryOut happlied success
  cases ho'.symm.trans ho''
  exact ⟨applied, verdict, happlied, hsession⟩

/-- **A command that has a reason to be idle changes nothing.** -/
theorem Idle.exists_runCommand (h : Idle s reader env replies name arguments) :
    ∃ o, s.runCommand reader env replies name arguments = .ok o ∧ o.session = s := by
  cases h with
  | invalid ha =>
    rw [runCommand, ha]
    exact ⟨_, rfl, rfl⟩
  | notOpen ha hnone =>
    rw [runCommand, ha]
    dsimp only
    rw [hnone]
    exact ⟨_, rfl, rfl⟩
  | unknown hnone =>
    cases ha : CommandArguments.ofArguments? reader arguments with
    | none =>
      rw [runCommand, ha]
      exact ⟨_, rfl, rfl⟩
    | some a =>
      rw [runCommand, ha]
      dsimp only
      rw [hnone]
      split
      · rename_i hsome
        cases hsome
      · exact ⟨_, rfl, rfl⟩
  | @refused a command text doc ha htext hcommand hdoc hrefuses =>
    obtain ⟨o, ho, hsession⟩ :=
      exists_carryOut_of_edits?_eq_none s replies hrefuses.edits?_planOn a.uri text
    rw [runCommand_eq ha htext hcommand hdoc rfl, ho]
    exact ⟨_, rfl, hsession⟩
  | failed hedits hfailed =>
    obtain ⟨applied, verdict, happlied, hsession⟩ := exists_applyTo_eq (.inl (by rw [hfailed]; rfl))
    obtain ⟨o, ho, ho'⟩ := hedits.exists_runCommand happlied
    exact ⟨o, ho, ho'.trans hsession⟩

/-- A command has an outcome wherever there are code views of the text and of what it is rewritten
to. -/
theorem exists_runCommand
    (hopen : ∀ a text, CommandArguments.ofArguments? reader arguments = some a →
      s.document? a.uri = some text →
      ∃ doc, Document.ofString text = .ok doc)
    (hedited : s.hasClient = false → ∀ a text es updated,
      ComesTo s reader env replies name arguments a text es →
      applyEdits text es = .ok updated → ∃ doc, Document.ofString updated = .ok doc) :
    ∃ o, s.runCommand reader env replies name arguments = .ok o := by
  have hidle : Idle s reader env replies name arguments →
      ∃ o, s.runCommand reader env replies name arguments = .ok o :=
    fun h => h.exists_runCommand.imp fun _ ho => ho.1
  cases ha : CommandArguments.ofArguments? reader arguments with
  | none => exact hidle (.invalid ha)
  | some a =>
    cases htext : s.document? a.uri with
    | none => exact hidle (.notOpen ha htext)
    | some text =>
      cases hcommand : Command.ofName? name with
      | none => exact hidle (.unknown hcommand)
      | some command =>
        obtain ⟨doc, hdoc⟩ := hopen a text ha htext
        cases hplan : (planOn (s.context env replies) a doc command).2.edits? with
        | none =>
          obtain ⟨o, ho, -⟩ := exists_carryOut_of_edits?_eq_none s replies hplan a.uri text
          rw [runCommand_eq ha htext hcommand hdoc rfl, ho]
          exact ⟨_, rfl⟩
        | some es =>
          have hedits : ComesTo s reader env replies name arguments a text es :=
            .mk ha htext hcommand hdoc (edits?_planOn.mp hplan)
          have happly : ∃ applied verdict, s.applyTo replies a.uri text es =
              .ok (applied, verdict) := by
            cases hclient : s.hasClient with
            | true =>
              obtain ⟨applied, verdict, happlied, -⟩ := exists_applyTo_eq (.inr hclient)
              exact ⟨applied, verdict, happlied⟩
            | false =>
              cases hupdated : applyEdits text es with
              | error e =>
                obtain ⟨applied, verdict, happlied, -⟩ :=
                  exists_applyTo_eq (.inl (by rw [hupdated]; rfl))
                exact ⟨applied, verdict, happlied⟩
              | ok updated =>
                obtain ⟨doc', hdoc'⟩ := hedited hclient a text es updated hedits hupdated
                exact exists_applyTo hclient hupdated (map_ok_iff.mpr ⟨doc', hdoc', rfl⟩) replies
          obtain ⟨applied, verdict, happlied⟩ := happly
          obtain ⟨o, ho, -⟩ := hedits.exists_runCommand happlied
          exact ⟨o, ho⟩

end Session

/-- A session without a client, with a document that imports a class and does not use it. -/
def unusedImport : Session where
  documents := [("file:///a.php", "<?php\nuse A\\B;\n"), ("file:///b.php", "<?php\nuse C\\D;\n")]

end UseImports
