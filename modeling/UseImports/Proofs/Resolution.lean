import UseImports.Analysis
import UseImports.Proofs.Code.Exchange

/-!
# What references reach

The table of a document (`AliasTable`) is asked for what a local name stands for: the last import of
that name. When some imports go or change places, the references of the document reach the same
names as before as long as each of the imports that they reach is still the last of its name. Then
the analysis finds the same uses.

* `lookup`: what a local name stands for among some declarations.
* `fqn_get?_build`, `mem_names_build`, `mem_names_iff`: the table of some declarations.
* `RetainsCalls`, `Retains`: the declarations still give the calls of an analysis, or all its
  references, what they reach.
* `RetainsCalls.references`, `RetainsCalls.usedFunctions_eq`, `Retains.usedClasses_eq`: **what is
  used stays the same.**
* `Retains.unimported_eq`: so do the names that lack an import.
* `dropping_keeps_resolution`: **dropping unused imports changes no resolution**, whatever the
  declarations and the references are.
* `lookup_eq_of_perm`, `retains_of_perm`: any reordering retains what is reached, where no name is
  imported twice.
-/

namespace UseImports

variable {d d' : Document} {ds es : List Declaration} {kind : ImportKind} {fqn name : String}
    {names : List String} {code : List Char} {r : Reference} {rule : Rule}

/-! ## Tables -/

/-- The declaration binds the local name. -/
def Declaration.binds (kind : ImportKind) (name : String) (d : Declaration) : Bool :=
  d.kind == kind && d.localName == name

/-- The full name that the local name stands for: that of its last import. -/
def lookup (ds : List Declaration) (kind : ImportKind) (name : String) : Option String :=
  (ds.reverse.find? (Declaration.binds kind name)).map (·.fqn)

/-- What a declaration means decides what it binds. -/
theorem binds_of_meaning_eq {d e : Declaration} (h : d.meaning = e.meaning) (kind : ImportKind)
    (name : String) : d.binds kind name = e.binds kind name := by
  simp only [Declaration.meaning, Prod.mk.injEq] at h
  obtain ⟨hfqn, halias, hkind⟩ := h
  simp only [Declaration.binds, Declaration.localName, hfqn, halias, hkind]

/-- What a local name stands for depends on the meanings of the declarations. -/
theorem lookup_eq_find? (ds : List Declaration) (kind : ImportKind) (name : String) :
    lookup ds kind name = ((ds.map Declaration.meaning).reverse.find? fun m =>
      m.2.2 == kind && m.2.1.getD (shortName m.1) == name).map (·.1) := by
  rw [← List.map_reverse, List.find?_map, Option.map_map]
  rfl

theorem lookup_eq_none_iff : lookup ds kind name = none ↔ ∀ d ∈ ds, d.binds kind name = false := by
  simp [lookup]

theorem find?_bindingsFrom (i : Nat) (ds : List Declaration) (kind : ImportKind) (name : String) :
    ((AliasTable.bindingsFrom i ds).find? fun b => b.kind == kind && b.localName == name).map
    (·.fqn) =
      lookup ds kind name := by
  induction ds generalizing i with
  | nil => rfl
  | cons d ds ih =>
    have hcons : lookup (d :: ds) kind name =
        (lookup ds kind name).or (if d.binds kind name then some d.fqn else none) := by
      unfold lookup
      rw [List.reverse_cons, List.find?_append, Option.map_or, List.find?_singleton]
      congr 1
      split <;> rfl
    rw [hcons, ← ih (i + 1), AliasTable.bindingsFrom]
    by_cases hbinds : d.binds kind name = true
    · obtain ⟨hkind, hname⟩ : d.kind = kind ∧ d.localName = name := by
        simpa [Declaration.binds] using hbinds
      rw [if_pos hbinds, hkind, hname]
      cases hfind : (AliasTable.bindingsFrom (i + 1) ds).find? fun b =>
          b.kind == kind && b.localName == name with
      | some b =>
        have hany : ((AliasTable.bindingsFrom (i + 1) ds).any fun b =>
            b.kind == kind && b.localName == name) = true := by
          have hb := List.find?_some hfind
          exact List.any_eq_true.mpr ⟨b, List.mem_of_find?_eq_some hfind, hb⟩
        rw [if_pos hany, hfind]
        rfl
      | none =>
        have hany : ((AliasTable.bindingsFrom (i + 1) ds).any fun b =>
            b.kind == kind && b.localName == name) = false := by
          rw [List.any_eq_false]
          exact List.find?_eq_none.mp hfind
        rw [hany]
        simp
    · rw [if_neg hbinds, Option.or_none]
      split
      · rfl
      · rw [List.find?_cons]
        have : (d.kind == kind && d.localName == name) = false := by
          simpa [Declaration.binds] using hbinds
        simp only [this]

/-- **A local name stands for its last import.** -/
theorem fqn_get?_build (ds : List Declaration) (kind : ImportKind) (name : String) :
    ((AliasTable.build ds).get? kind name).map (·.fqn) = lookup ds kind name :=
  find?_bindingsFrom 0 ds kind name

theorem contains_build (ds : List Declaration) (kind : ImportKind) (name : String) :
    (AliasTable.build ds).contains kind name = (lookup ds kind name).isSome := by
  rw [AliasTable.contains, ← fqn_get?_build, Option.isSome_map]

theorem mem_names_build :
    name ∈ (AliasTable.build ds).names kind ↔ (lookup ds kind name).isSome = true := by
  rw [← contains_build, AliasTable.contains, AliasTable.get?, List.find?_isSome]
  unfold AliasTable.names AliasTable.ofKind
  simp only [List.mem_map, List.mem_filter, Bool.and_eq_true, beq_iff_eq]
  constructor
  · rintro ⟨b, ⟨hb, hkind⟩, hname⟩
    exact ⟨b, hb, hkind, hname⟩
  · rintro ⟨b, hb, hkind, hname⟩
    exact ⟨b, ⟨hb, hkind⟩, hname⟩

/-! ## Use -/

/-- The full name that a class reference reaches among the declarations. -/
def reachedClass (ds : List Declaration) (name : String) : Option String :=
  if name.toList.head? == some '\\' then none else lookup ds .cls (firstSegment name)

theorem fqn_resolveClass?_build (ds : List Declaration) (name : String) :
    ((AliasTable.build ds).resolveClass? name).map (·.fqn) = reachedClass ds name := by
  unfold AliasTable.resolveClass? reachedClass
  by_cases h : (name.toList.head? == some '\\') = true
  · rw [if_pos h, if_pos h]
    rfl
  · rw [if_neg h, if_neg h]
    exact fqn_get?_build ds .cls _

theorem usedClasses_eq (ds : List Declaration) (rs : List Reference) :
    usedClasses (AliasTable.build ds) rs =
      ((rs.map Reference.meaning).filter (·.2.1 == .type)).filterMap fun m =>
        reachedClass ds m.1 := by
  unfold usedClasses
  rw [List.filter_map, List.filterMap_map]
  exact congrArg (List.filterMap · _) (funext fun r => fqn_resolveClass?_build ds _)

theorem usedFunctions_eq (ds : List Declaration) (rs : List Reference) :
    usedFunctions (AliasTable.build ds) rs =
      ((rs.map Reference.meaning).filter (·.2.1 == .function)).filterMap fun m =>
        lookup ds .function m.1 := by
  unfold usedFunctions
  rw [List.filter_map, List.filterMap_map]
  exact congrArg (List.filterMap · _) (funext fun r => fqn_get?_build ds .function _)

/-- The declarations still give the calls of an analysis what they reach, and bind no new name. -/
structure RetainsCalls (a : Analysis) (ds : List Declaration) : Prop where
  bound : ∀ kind name, (lookup ds kind name).isSome = true →
    (lookup a.declarations kind name).isSome = true
  functions : ∀ name fqn, lookup a.declarations .function name = some fqn → fqn ∈ a.usedFunctions →
    lookup ds .function name = some fqn

/-- The declarations still give all references of an analysis what they reach, and bind no new name.
-/
structure Retains (a : Analysis) (ds : List Declaration) : Prop extends RetainsCalls a ds where
  classes : ∀ name fqn, lookup a.declarations .cls name = some fqn → fqn ∈ a.usedClasses →
    lookup ds .cls name = some fqn

theorem name_of_mem_callReferences (hne : "" ∉ names) (h : r ∈ callReferences code names) :
    r.name ∈ names := by
  rw [callReferences_subset hne (List.Subset.refl names)] at h
  simpa using (List.mem_filter.mp h).2

/-- A reference to a function is one of the calls, so its name is one of those sought. -/
theorem name_of_mem_allReferences (hne : "" ∉ names) (h : r ∈ allReferences code names)
    (hkind : r.kind = .function) : r.name ∈ names := by
  have hfound : r ∈ foundReferences code names :=
    (List.mergeSort_perm _ _).subset ((keepsFirst_distinctSpans.sublist _).subset h)
  rcases List.mem_append.mp hfound with htype | hcall
  · obtain ⟨rule, -, hrule⟩ := List.mem_flatMap.mp htype
    have := kind_of_mem_ruleReferences hrule
    rw [hkind] at this
    cases this
  · exact name_of_mem_callReferences hne hcall

/-- The references depend on which names of functions are sought, not on their order. -/
theorem allReferences_congr {names' : List String} (hne : "" ∉ names)
    (h : ∀ name, name ∈ names' ↔ name ∈ names) (code : List Char) :
    allReferences code names' = allReferences code names :=
  allReferences_names hne (fun name => (h name).mp) fun r hr hkind =>
    (h r.name).mpr (name_of_mem_allReferences hne hr hkind)

/-- The local names of the functions that a document imports. -/
abbrev Retains.functionNames (d : Document) : List String :=
  (AliasTable.build d.declarations).names .function

namespace RetainsCalls

open Retains (functionNames)

/-- A function that is called stands for the same as before. -/
theorem lookup_function_eq (h : RetainsCalls d.analyze d'.declarations)
    (hmem : (name, .function, rule) ∈ d.analyze.references.map Reference.meaning) :
    lookup d'.declarations .function name = lookup d.declarations .function name := by
  cases hreached : lookup d.declarations .function name with
  | some fqn =>
    refine h.functions name fqn hreached ?_
    show fqn ∈ usedFunctions (AliasTable.build d.declarations) d.analyze.references
    rw [usedFunctions_eq, List.mem_filterMap]
    exact ⟨_, List.mem_filter.mpr ⟨hmem, rfl⟩, hreached⟩
  | none =>
    by_contra hsome
    have := h.bound .function name (Option.isSome_iff_ne_none.mpr hsome)
    rw [show d.analyze.declarations = d.declarations from rfl, hreached] at this
    cases this

/-- **The references are the same**, if they were with the old names of functions. -/
theorem references (h : RetainsCalls d.analyze d'.declarations) (hne : "" ∉ functionNames d)
    (hrefs : (allReferences d'.code (functionNames d)).map Reference.meaning =
      (allReferences d.code (functionNames d)).map Reference.meaning) :
    d'.analyze.references.map Reference.meaning = d.analyze.references.map Reference.meaning := by
  have hreferences : ∀ e : Document, e.analyze.references =
      allReferences e.code (functionNames e) :=
    fun e => references_eq_allReferences e _
  have hsub : functionNames d' ⊆ functionNames d := fun name hname =>
    mem_names_build.mpr (h.bound .function name (mem_names_build.mp hname))
  have hcalled : ∀ r ∈ allReferences d'.code (functionNames d), r.kind = .function →
      r.name ∈ functionNames d' := by
    intro r hr hkind
    obtain ⟨r₀, hr₀, hmeaning⟩ : ∃ r₀ ∈ allReferences d.code (functionNames d),
        r₀.meaning = r.meaning := by
      have := List.mem_map_of_mem (f := Reference.meaning) hr
      rw [hrefs] at this
      exact List.mem_map.mp this
    simp only [Reference.meaning, Prod.mk.injEq] at hmeaning
    obtain ⟨hname, hkind₀, -⟩ := hmeaning
    have hmem : (r.name, .function, r₀.rule) ∈ d.analyze.references.map Reference.meaning := by
      rw [hreferences]
      refine List.mem_map.mpr ⟨r₀, hr₀, ?_⟩
      simp only [Reference.meaning, hname, hkind₀, hkind]
    rw [mem_names_build, h.lookup_function_eq hmem, ← mem_names_build, ← hname]
    exact name_of_mem_allReferences hne hr₀ (hkind₀.trans hkind)
  rw [hreferences, hreferences, allReferences_names hne hsub hcalled, hrefs]

/-- **The same functions are used.** -/
theorem usedFunctions_eq (h : RetainsCalls d.analyze d'.declarations)
    (hrefs : d'.analyze.references.map Reference.meaning =
      d.analyze.references.map Reference.meaning) :
    d'.analyze.usedFunctions = d.analyze.usedFunctions := by
  show UseImports.usedFunctions (AliasTable.build d'.declarations) d'.analyze.references =
    UseImports.usedFunctions (AliasTable.build d.declarations) d.analyze.references
  rw [UseImports.usedFunctions_eq, UseImports.usedFunctions_eq, hrefs]
  refine List.filterMap_congr fun m hm => ?_
  obtain ⟨hmem, hkind⟩ := List.mem_filter.mp hm
  obtain ⟨name, kind, rule⟩ := m
  obtain rfl : kind = .function := by simpa using hkind
  exact h.lookup_function_eq hmem

end RetainsCalls

namespace Retains

/-- A name that a class reference looks up stands for the same as before. -/
theorem reachedClass_eq (h : Retains d.analyze d'.declarations)
    (hmem : (name, .type, rule) ∈ d.analyze.references.map Reference.meaning) :
    reachedClass d'.declarations name = reachedClass d.declarations name := by
  cases hreached : reachedClass d.declarations name with
  | some fqn =>
    have hused : fqn ∈ d.analyze.usedClasses := by
      show fqn ∈ usedClasses (AliasTable.build d.declarations) d.analyze.references
      rw [usedClasses_eq, List.mem_filterMap]
      exact ⟨_, List.mem_filter.mpr ⟨hmem, rfl⟩, hreached⟩
    unfold reachedClass at hreached ⊢
    split at hreached
    · cases hreached
    · rename_i hhead
      rw [if_neg hhead]
      exact h.classes _ _ hreached hused
  | none =>
    unfold reachedClass at hreached ⊢
    split at hreached
    · rename_i hhead
      rw [if_pos hhead]
    · rename_i hhead
      rw [if_neg hhead]
      by_contra hsome
      have := h.bound .cls (firstSegment name) (Option.isSome_iff_ne_none.mpr hsome)
      rw [show d.analyze.declarations = d.declarations from rfl, hreached] at this
      cases this

/-- **The same classes are used.** -/
theorem usedClasses_eq (h : Retains d.analyze d'.declarations)
    (hrefs : d'.analyze.references.map Reference.meaning =
      d.analyze.references.map Reference.meaning) :
    d'.analyze.usedClasses = d.analyze.usedClasses := by
  show UseImports.usedClasses (AliasTable.build d'.declarations) d'.analyze.references =
    UseImports.usedClasses (AliasTable.build d.declarations) d.analyze.references
  rw [UseImports.usedClasses_eq, UseImports.usedClasses_eq, hrefs]
  refine List.filterMap_congr fun m hm => ?_
  obtain ⟨hmem, hkind⟩ := List.mem_filter.mp hm
  obtain ⟨name, kind, rule⟩ := m
  obtain rfl : kind = .type := by simpa using hkind
  exact h.reachedClass_eq hmem

end Retains

/-- What a reference means decides whether it lacks an import. -/
def lacksImportOf (ds : List Declaration) (declared : List String)
    (m : String × ReferenceKind × Rule) : Bool :=
  m.2.1 == .type && isBare m.1 && !(lookup ds .cls m.1).isSome &&
    !declared.contains m.1 && !isBuiltin m.1

theorem unimported_names_eq (d : Document) :
    d.analyze.unimported.map (·.name) =
      ((d.analyze.references.map Reference.meaning).filter
        (lacksImportOf d.declarations d.declaredClasses)).map (·.1) := by
  have hunimported : d.analyze.unimported =
      findUnimported d d.analyze.references (AliasTable.build d.declarations) d.declaredClasses :=
        rfl
  rw [hunimported, findUnimported, List.map_map, List.filter_map, List.map_map]
  have hlacks : lacksImport (AliasTable.build d.declarations) d.declaredClasses =
      lacksImportOf d.declarations d.declaredClasses ∘ Reference.meaning := by
    funext r
    rw [lacksImport, contains_build]
    rfl
  rw [hlacks]
  rfl

/-- A name without backslashes is its first segment. -/
theorem reachedClass_of_isBare (h : isBare name = true) (ds : List Declaration) :
    reachedClass ds name = lookup ds .cls name := by
  have hnot : '\\' ∉ name.toList := by simpa [isBare] using h
  have hfirst : firstSegment name = name := by
    have hall : ∀ c ∈ name.toList, (c != '\\') = true := fun c hc => bne_iff_ne.mpr fun heq =>
      hnot (heq ▸ hc)
    rw [firstSegment, List.takeWhile_eq_self_iff.mpr hall, String.ofList_toList]
  have hhead : (name.toList.head? == some '\\') = false :=
    beq_eq_false_iff_ne.mpr fun heq => hnot (List.mem_of_mem_head? heq)
  rw [reachedClass, hhead, hfirst]
  rfl

/-- **The same names lack an import**, if the same classes are declared. -/
theorem Retains.unimported_eq_of_mem (h : Retains d.analyze d'.declarations)
    (hrefs : d'.analyze.references.map Reference.meaning =
      d.analyze.references.map Reference.meaning)
    (hclasses : ∀ name, name ∈ d'.declaredClasses ↔ name ∈ d.declaredClasses) :
    d'.analyze.unimported.map (·.name) = d.analyze.unimported.map (·.name) := by
  rw [unimported_names_eq, unimported_names_eq, hrefs]
  refine congrArg _ (List.filter_congr fun m hm => ?_)
  obtain ⟨name, kind, rule⟩ := m
  have hdeclared : d'.declaredClasses.contains name = d.declaredClasses.contains name := by
    rw [Bool.eq_iff_iff, List.contains_iff_mem, List.contains_iff_mem]
    exact hclasses name
  unfold lacksImportOf
  rw [hdeclared]
  dsimp only
  cases kind with
  | function => rfl
  | type =>
    cases hbare : isBare name with
    | false => rfl
    | true =>
      rw [← reachedClass_of_isBare hbare, ← reachedClass_of_isBare hbare, h.reachedClass_eq hm]

theorem Retains.unimported_eq (h : Retains d.analyze d'.declarations)
    (hrefs : d'.analyze.references.map Reference.meaning =
      d.analyze.references.map Reference.meaning)
    (hclasses : d'.declaredClasses = d.declaredClasses) :
    d'.analyze.unimported.map (·.name) = d.analyze.unimported.map (·.name) :=
  h.unimported_eq_of_mem hrefs fun _ => by rw [hclasses]

/-! ## Fewer imports and imports in another order -/

/-- Something uses the import. -/
def Analysis.isUsed (a : Analysis) (d : Declaration) : Bool :=
  !isUnused a.usedClasses a.usedFunctions d

theorem lookup_isSome_iff :
    (lookup ds kind name).isSome = true ↔ ∃ d ∈ ds, d.binds kind name = true := by
  simp [lookup]

/-- The names of a table are those that are imported. -/
theorem mem_names_iff :
    name ∈ (AliasTable.build ds).names kind ↔ ∃ d ∈ ds, d.kind = kind ∧ d.localName = name := by
  rw [mem_names_build, lookup_isSome_iff]
  simp only [Declaration.binds, Bool.and_eq_true, beq_iff_eq]

/-- The last import of a name is still the last one when imports of other names are left out. -/
theorem lookup_filter_of_some {p : Declaration → Bool} (h : lookup ds kind name = some fqn)
    (hp : ∀ d, d.kind = kind → d.fqn = fqn → p d = true) :
    lookup (ds.filter p) kind name = some fqn := by
  obtain ⟨d, hfind, rfl⟩ := Option.map_eq_some_iff.mp h
  have hkind : d.kind = kind := by
    have hbinds := List.find?_some hfind
    simp only [Declaration.binds, Bool.and_eq_true, beq_iff_eq] at hbinds
    exact hbinds.1
  unfold lookup
  rw [← List.filter_reverse, find?_filter_of_pos hfind (hp d hkind rfl)]
  rfl

theorem lookup_filter_of_none (h : lookup ds kind name = none) (p : Declaration → Bool) :
    lookup (ds.filter p) kind name = none := by
  rw [lookup_eq_none_iff] at h ⊢
  exact fun d hd => h d (List.mem_of_mem_filter hd)

/-! ## Any declarations and references -/

section Kept

variable (ds : List Declaration) (rs : List Reference)

/-- The imports among the declarations that none of the references uses. -/
def reportedUnused : List Declaration :=
  findUnused ds (usedClasses (AliasTable.build ds) rs) (usedFunctions (AliasTable.build ds) rs)

/-- The declarations without the imports that are reported as unused. -/
def keptImports : List Declaration :=
  ds.filter fun d => !(reportedUnused ds rs).contains d

theorem keptImports_eq : keptImports ds rs = ds.filter fun d =>
    !isUnused (usedClasses (AliasTable.build ds) rs)
      (usedFunctions (AliasTable.build ds) rs) d := by
  refine List.filter_congr fun d hd => congrArg (!·) ?_
  rw [Bool.eq_iff_iff, List.contains_iff_mem, reportedUnused, findUnused, List.mem_mergeSort,
    List.mem_filter]
  exact ⟨And.right, And.intro hd⟩

variable {ds rs}

/-- A local name stands for the same among the imports that are kept, if all imports of what it
stands for are. -/
theorem lookup_keptImports
    (hused : ∀ fqn, lookup ds kind name = some fqn → ∀ d : Declaration, d.kind =
      kind → d.fqn = fqn →
      isUnused (usedClasses (AliasTable.build ds) rs) (usedFunctions (AliasTable.build ds) rs) d =
        false) : lookup (keptImports ds rs) kind name = lookup ds kind name := by
  rw [keptImports_eq]
  cases hlookup : lookup ds kind name with
  | none => exact lookup_filter_of_none hlookup _
  | some fqn =>
    refine lookup_filter_of_some hlookup fun d hkind hfqn => ?_
    rw [hused fqn hlookup d hkind hfqn]
    rfl

/-- A class reference reaches the same import. -/
theorem reachedClass_keptImports (hr : r ∈ rs) (hkind : r.kind = .type) :
    reachedClass (keptImports ds rs) r.name = reachedClass ds r.name := by
  by_cases hhead : (r.name.toList.head? == some '\\') = true
  · rw [reachedClass, reachedClass, if_pos hhead, if_pos hhead]
  · have hreached : reachedClass ds r.name = lookup ds .cls (firstSegment r.name) := if_neg hhead
    rw [hreached, reachedClass, if_neg hhead]
    refine lookup_keptImports fun fqn hlookup d hcls hfqn => ?_
    -- the reference itself makes the class a used one
    have hmem : fqn ∈ usedClasses (AliasTable.build ds) rs := by
      rw [usedClasses_eq, List.mem_filterMap]
      refine ⟨r.meaning, List.mem_filter.mpr ⟨List.mem_map_of_mem hr, ?_⟩, hreached.trans hlookup⟩
      rw [Reference.meaning, hkind]
      rfl
    simp [isUnused, hcls, hfqn, hmem]

/-- A call reaches the same import. -/
theorem lookup_function_keptImports (hr : r ∈ rs) (hkind : r.kind = .function) :
    lookup (keptImports ds rs) .function r.name = lookup ds .function r.name := by
  refine lookup_keptImports fun fqn hlookup d hfunction hfqn => ?_
  have hmem : fqn ∈ usedFunctions (AliasTable.build ds) rs := by
    rw [usedFunctions_eq, List.mem_filterMap]
    refine ⟨r.meaning, List.mem_filter.mpr ⟨List.mem_map_of_mem hr, ?_⟩, hlookup⟩
    rw [Reference.meaning, hkind]
    rfl
  simp [isUnused, hfunction, hfqn, hmem]

theorem usedClasses_keptImports :
    usedClasses (AliasTable.build (keptImports ds rs)) rs =
      usedClasses (AliasTable.build ds) rs := by
  unfold usedClasses
  refine List.filterMap_congr fun r hr => ?_
  obtain ⟨hmem, hkind⟩ := List.mem_filter.mp hr
  rw [fqn_resolveClass?_build, fqn_resolveClass?_build,
    reachedClass_keptImports hmem (by simpa using hkind)]

theorem usedFunctions_keptImports :
    usedFunctions (AliasTable.build (keptImports ds rs)) rs =
      usedFunctions (AliasTable.build ds) rs := by
  unfold usedFunctions
  refine List.filterMap_congr fun r hr => ?_
  obtain ⟨hmem, hkind⟩ := List.mem_filter.mp hr
  rw [fqn_get?_build, fqn_get?_build, lookup_function_keptImports hmem (by simpa using hkind)]

end Kept

/-- **Dropping unused imports changes no resolution**: every reference goes through the imports that
are kept to the name that it went to through all of them, and of these imports none is unused. -/
theorem dropping_keeps_resolution (ds : List Declaration) (rs : List Reference) :
    (∀ r ∈ rs, r.kind = .type →
      ((AliasTable.build (keptImports ds rs)).resolveClass? r.name).map (·.fqn) =
        ((AliasTable.build ds).resolveClass? r.name).map (·.fqn)) ∧
    (∀ r ∈ rs, r.kind = .function →
      ((AliasTable.build (keptImports ds rs)).get? .function r.name).map (·.fqn) =
        ((AliasTable.build ds).get? .function r.name).map (·.fqn)) ∧
    reportedUnused (keptImports ds rs) rs = [] := by
  refine ⟨fun r hr hkind => ?_, fun r hr hkind => ?_, ?_⟩
  · rw [fqn_resolveClass?_build, fqn_resolveClass?_build, reachedClass_keptImports hr hkind]
  · rw [fqn_get?_build, fqn_get?_build, lookup_function_keptImports hr hkind]
  · rw [reportedUnused, usedClasses_keptImports, usedFunctions_keptImports, findUnused,
      List.eq_nil_iff_forall_not_mem]
    intro d hd
    rw [List.mem_mergeSort, List.mem_filter, keptImports_eq, List.mem_filter] at hd
    obtain ⟨⟨-, hkept⟩, hunused⟩ := hd
    rw [hunused] at hkept
    cases hkept

/-- Two classes under one name, the first of them under another name too, and a class that nothing
refers to. -/
def shadowedImports : List Declaration :=
  [("A\\Foo", none), ("B\\Foo", none), ("A\\Foo", some "X"), ("C\\Bar", none)].map fun m =>
    ⟨m.1, m.2, .cls, ⟨0, 0⟩, ⟨0, 0⟩, 0, none, false⟩

/-- References to both classes. -/
def shadowingReferences : List Reference :=
  [⟨⟨0, 0⟩, "Foo", .type, .keywordSingle⟩, ⟨⟨0, 0⟩, "X\\Y", .type, .staticAccess⟩]

/-- The first import is kept though its name is taken by the second one, and the second one still
has the name. -/
theorem dropping_keeps_resolution_shadowed :
    (keptImports shadowedImports shadowingReferences).map (·.meaning) =
      [("A\\Foo", none, .cls), ("B\\Foo", none, .cls), ("A\\Foo", some "X", .cls)] ∧
    ((AliasTable.build (keptImports shadowedImports shadowingReferences)).resolveClass? "Foo").map
    (·.fqn) =
      some "B\\Foo" ∧
    reportedUnused (keptImports shadowedImports shadowingReferences) shadowingReferences = [] := by
  obtain ⟨hclasses, -, hunused⟩ := dropping_keeps_resolution shadowedImports shadowingReferences
  have hfoo := hclasses ⟨⟨0, 0⟩, "Foo", .type, .keywordSingle⟩ List.mem_cons_self rfl
  exact ⟨by decide +kernel, hfoo.trans (by decide +kernel), hunused⟩

/-- No two declarations of one kind bind the same local name. -/
def DistinctNames (ds : List Declaration) : Prop :=
  (ds.map fun d => (d.kind, d.localName)).Nodup

theorem lookup_eq_some_iff_of_distinct (h : DistinctNames ds) :
    lookup ds kind name = some fqn ↔ ∃ d ∈ ds, d.binds kind name = true ∧ d.fqn = fqn := by
  constructor
  · intro hlookup
    obtain ⟨d, hfind, rfl⟩ := Option.map_eq_some_iff.mp hlookup
    have hbinds := List.find?_some hfind
    exact ⟨d, List.mem_reverse.mp (List.mem_of_find?_eq_some hfind), hbinds, rfl⟩
  · rintro ⟨d, hd, hbinds, rfl⟩
    obtain ⟨e, hfind⟩ := Option.isSome_iff_exists.mp
      (List.find?_isSome.mpr ⟨d, List.mem_reverse.mpr hd, hbinds⟩)
    have hebinds := List.find?_some hfind
    have heq : e = d := by
      refine List.inj_on_of_nodup_map h
        (List.mem_reverse.mp (List.mem_of_find?_eq_some hfind)) hd ?_
      simp only [Declaration.binds, Bool.and_eq_true, beq_iff_eq] at hbinds hebinds
      rw [hbinds.1, hbinds.2, hebinds.1, hebinds.2]
    rw [lookup, hfind, heq]
    rfl

theorem distinctNames_iff : DistinctNames ds ↔
    ((ds.map Declaration.meaning).map fun m => (m.2.2, m.2.1.getD (shortName m.1))).Nodup := by
  rw [List.map_map]
  rfl

theorem DistinctNames.of_perm (h : DistinctNames ds)
    (hperm : (es.map Declaration.meaning).Perm (ds.map Declaration.meaning)) :
    DistinctNames es := by
  rw [distinctNames_iff] at h ⊢
  exact (hperm.map _).nodup_iff.mpr h

theorem DistinctNames.of_sublist (h : DistinctNames ds)
    (hsub : (es.map Declaration.meaning).Sublist (ds.map Declaration.meaning)) :
    DistinctNames es := by
  rw [distinctNames_iff] at h ⊢
  exact h.sublist (hsub.map _)

/-- **In another order the imports stand for the same**, where no name is imported twice. -/
theorem lookup_eq_of_perm (hdistinct : DistinctNames ds)
    (h : (es.map Declaration.meaning).Perm (ds.map Declaration.meaning)) (kind : ImportKind)
    (name : String) : lookup es kind name = lookup ds kind name := by
  refine Option.ext fun fqn => ?_
  rw [lookup_eq_some_iff_of_distinct (hdistinct.of_perm h),
    lookup_eq_some_iff_of_distinct hdistinct]
  constructor
  · rintro ⟨d, hd, hbinds, hfqn⟩
    obtain ⟨e, he, hmeaning⟩ := List.mem_map.mp (h.subset (List.mem_map_of_mem hd))
    refine ⟨e, he, (binds_of_meaning_eq hmeaning kind name).trans hbinds, ?_⟩
    exact (congrArg Prod.fst hmeaning).trans hfqn
  · rintro ⟨d, hd, hbinds, hfqn⟩
    obtain ⟨e, he, hmeaning⟩ := List.mem_map.mp (h.symm.subset (List.mem_map_of_mem hd))
    refine ⟨e, he, (binds_of_meaning_eq hmeaning kind name).trans hbinds, ?_⟩
    exact (congrArg Prod.fst hmeaning).trans hfqn

/-- **Another order of the imports retains what is reached**, where no name is imported twice. -/
theorem retains_of_perm {a : Analysis} (hdistinct : DistinctNames a.declarations)
    (h : (ds.map Declaration.meaning).Perm (a.declarations.map Declaration.meaning)) :
    Retains a ds where
  bound kind name hsome := lookup_eq_of_perm hdistinct h kind name ▸ hsome
  classes name _ hlookup _ := (lookup_eq_of_perm hdistinct h .cls name).trans hlookup
  functions name _ hlookup _ := (lookup_eq_of_perm hdistinct h .function name).trans hlookup

end UseImports
