import UseImports.Proofs.Edit.Planned

/-!
# The place of a new import

A new statement goes in front of a line (`insertion_edit`): behind the last import of the namespace,
else behind the namespace declaration, else behind the open tag, else in front of the text.
No import reaches over that line start: the last one ends in front of it, and so do those before.
Where there is no last import, those in front of the namespace declaration end before the
declaration begins.

* `divides_of_uncrossed`: a code is divided where no import reaches over.
* `lastImport?_cases`: the import behind which a new one goes.
* `uncrossed_insertion`: **no import reaches over the place of a new one.**
-/

namespace UseImports

open Placed Cursor

variable {f : Option Declaration → Declaration → Option Declaration} {doc : Document}
    {n : NamespaceDeclaration}

/-! ## Places that no import reaches over -/

/-- No import of the code reaches over the place. -/
def Uncrossed (code : List Char) (n : Nat) : Prop :=
  ∀ d ∈ imports code, d.statement.stop ≤ n ∨ n ≤ d.statement.start

/-- **A code is divided where a statement may begin and no import reaches over.** -/
theorem divides_of_uncrossed {p q : List Char} (hopens : Opens p.reverse)
    (hlevel : importLevel p p = true) (huncrossed : Uncrossed (p ++ q) (byteLength p)) :
    Divides p q := by
  refine divides_of_sites hopens hlevel fun k s hmem hsite => ?_
  cases hscan : scanState false false s.after with
  | none =>
    have hbody := statementBody?_within [] (.inr hscan : q = [] ∨ _)
    rw [statementImports_within hbody, byteLength_nil, Declaration.map_shift_zero]
  | some state =>
    have hlength := statementLength?_of_scanState hscan
    have halone : statementImports k s = [] := by
      rw [statementImports_eq, statementBody?, hlength]
      rfl
    rw [halone]
    by_contra hne
    -- the statement would be an import that begins in front of the place and ends behind it
    obtain ⟨body, hbody, -⟩ := exists_body_of_ne_nil hne
    obtain ⟨d, hd⟩ := List.exists_mem_of_ne_nil _ hne
    have himport : d ∈ imports (p ++ q) := by
      rw [imports_eq, useStarts_append hopens]
      refine List.mem_flatMap.mpr ⟨(k.within [] q, s.within [] q), ?_, ?_⟩
      · exact List.mem_append_left _ (List.mem_map_of_mem hmem)
      · rw [isSite_front hopens q hmem, hsite, if_pos rfl]
        exact hd
    obtain ⟨hk, hreach⟩ := mem_useStarts hmem
    obtain ⟨-, -, -, -, w, hlen, -, hafter, hbefore⟩ := useKeyword?_eq_some hk
    have htext : p = k.before.reverse ++ (w ++ s.after) := by rw [← hafter]; exact hreach.text_eq
    have hstop : byteLength p < s.offset + byteLength body + 1 := by
      obtain ⟨rest, hrest⟩ := eq_of_statementBody? hbody
      rw [within_after] at hrest
      have hsemicolon : ';' ∉ s.after := fun hmem => by
        rw [scanState_of_mem hmem] at hscan
        cases hscan
      have hle : byteLength s.after ≤ byteLength body := by
        rcases List.append_eq_append_iff.mp hrest with ⟨t, hbody', -⟩ | ⟨t, hafter', ht⟩
        · rw [hbody', byteLength_append]
          omega
        · cases t with
          | nil =>
            rw [List.append_nil] at hafter'
            rw [hafter']
          | cons c t =>
            obtain rfl : ';' = c := (List.cons.inj ht).1
            exact absurd (by rw [hafter']; simp) hsemicolon
      have hp := congrArg byteLength htext
      rw [byteLength_append, byteLength_append, byteLength_reverse] at hp
      rw [Cursor.offset, hbefore, byteLength_append, byteLength_reverse]
      omega
    have hstart : k.offset < byteLength p := by
      have hw : 0 < byteLength w := by
        rcases Nat.eq_zero_or_pos (byteLength w) with hzero | hpos
        · rw [byteLength_eq_zero] at hzero
          rw [hzero] at hlen
          cases hlen
        · exact hpos
      have hp := congrArg byteLength htext
      rw [byteLength_append, byteLength_append, byteLength_reverse] at hp
      rw [Cursor.offset]
      omega
    have hspan : d.statement = ⟨k.offset, s.offset + byteLength body + 1⟩ := by
      rw [statementImports_eq, hbody] at hd
      have := statement_of_mem_readBody hd
      rwa [offset_within, offset_within, byteLength_nil, Nat.zero_add, Nat.zero_add] at this
    rcases huncrossed d himport with hle | hle
    · rw [hspan] at hle
      exact absurd hle (Nat.not_le.mpr hstop)
    · rw [hspan] at hle
      exact absurd hle (Nat.not_le.mpr hstart)

/-! ## The last import -/

/-- Keeps the later one of two imports. -/
structure KeepsLater (f : Option Declaration → Declaration → Option Declaration) : Prop where
  first : ∀ d, f none d = some d
  next : ∀ b d, f (some b) d = if b.statement.stop ≤ d.statement.stop then some d else some b

theorem KeepsLater.foldl_some (h : KeepsLater f) (ds : List Declaration) (b : Declaration) :
    ∃ last, ds.foldl f (some b) = some last ∧ last ∈ b :: ds ∧
      ∀ d ∈ b :: ds, d.statement.stop ≤ last.statement.stop := by
  induction ds generalizing b with
  | nil => exact ⟨b, rfl, List.mem_cons_self, by simp⟩
  | cons d ds ih =>
    rw [List.foldl_cons, h.next]
    split
    · rename_i hle
      obtain ⟨last, hlast, hmem, hmax⟩ := ih d
      refine ⟨last, hlast, List.mem_cons_of_mem _ hmem, fun x hx => ?_⟩
      rcases List.mem_cons.mp hx with rfl | hx
      · exact Nat.le_trans hle (hmax d List.mem_cons_self)
      · exact hmax x hx
    · rename_i hlt
      obtain ⟨last, hlast, hmem, hmax⟩ := ih b
      refine ⟨last, hlast, ?_, fun x hx => ?_⟩
      · rcases List.mem_cons.mp hmem with rfl | hmem
        · exact List.mem_cons_self
        · exact List.mem_cons_of_mem _ (List.mem_cons_of_mem _ hmem)
      · have hb := hmax b List.mem_cons_self
        rcases List.mem_cons.mp hx with rfl | hx
        · exact hb
        rcases List.mem_cons.mp hx with rfl | hx
        · omega
        · exact hmax x (List.mem_cons_of_mem _ hx)

theorem KeepsLater.foldl_cases (h : KeepsLater f) (ds : List Declaration) :
    (ds.foldl f none = none ∧ ds = []) ∨ ∃ last, ds.foldl f none = some last ∧ last ∈ ds ∧
      ∀ d ∈ ds, d.statement.stop ≤ last.statement.stop := by
  cases ds with
  | nil => exact .inl ⟨rfl, rfl⟩
  | cons b ds =>
    rw [List.foldl_cons, h.first]
    exact .inr (h.foldl_some ds b)

/-- **The import behind which a new one goes is the last one behind the offset**, if there is any.
-/
theorem lastImport?_cases (ds : List Declaration) (offset : Nat) :
    (lastImport? ds offset = none ∧ ∀ d ∈ ds, d.statement.start < offset) ∨
      ∃ last, lastImport? ds offset = some last ∧ last ∈ ds ∧ offset ≤ last.statement.start ∧
        ∀ d ∈ ds, offset ≤ d.statement.start → d.statement.stop ≤ last.statement.stop := by
  unfold lastImport?
  have hiff : ∀ d, d ∈ ds.filter (fun d => offset ≤ d.statement.start) ↔ d ∈ ds ∧
      offset ≤ d.statement.start :=
    fun d => by rw [List.mem_filter, decide_eq_true_eq]
  refine (KeepsLater.foldl_cases ⟨fun _ => ?_, fun _ _ => ?_⟩ _).imp (fun ⟨hnone, hnil⟩ =>
    ⟨hnone, fun d hd => ?_⟩)
    fun ⟨last, hlast, hmem, hmax⟩ =>
      ⟨last, hlast, ((hiff last).mp hmem).1, ((hiff last).mp hmem).2,
      fun d hd hle => hmax d ((hiff d).mpr ⟨hd, hle⟩)⟩
  · rfl
  · rfl
  · by_contra hle
    have hmem := (hiff d).mpr ⟨hd, Nat.not_lt.mp hle⟩
    rw [hnil] at hmem
    cases hmem

theorem exists_import_eq {d : Declaration} (h : d ∈ imports doc.code) :
    ∃ d' ∈ doc.declarations, d'.statement = d.statement := by
  rw [← declarations_unlined] at h
  obtain ⟨d', hd', rfl⟩ := List.mem_map.mp h
  exact ⟨d', hd', rfl⟩

/-! ## The place -/

/-- The end of the namespace declaration. -/
def Document.namespaceStop (doc : Document) : Nat :=
  (doc.ownNamespace?.map (·.statement.stop)).getD 0

/-- **The four places of a new statement.** -/
inductive PlacedAt (doc : Document) (statement : String) : Edit → Prop
  | behindImport {last : Declaration} : lastImport? doc.declarations doc.namespaceStop = some last →
      PlacedAt doc statement (insertAfterLine doc.text (lineExtent doc.text last.statement).2
        (String.ofList (indentation (lineText doc.text (lineExtent doc.text last.statement).1)) ++
          statement ++
          lineBreak doc.text))
  | behindNamespace {n : NamespaceDeclaration} : doc.ownNamespace? = some n →
      (∀ d ∈ doc.declarations, d.statement.start < n.statement.stop) →
      PlacedAt doc statement (insertAfterNamespace doc.text n statement)
  | behindTag {tag : Span} : doc.declarations = [] → doc.ownNamespace? = none →
      doc.openTag? = some tag →
      PlacedAt doc statement
        (insertAfterLine doc.text (lineOf doc.text tag.start) (statement ++ lineBreak doc.text))
  | inFront : doc.declarations = [] → doc.ownNamespace? = none → doc.openTag? = none →
      PlacedAt doc statement (Edit.insert 0 (statement ++ lineBreak doc.text))

theorem placedAt_insertionEdit (doc : Document) (statement : String) :
    PlacedAt doc statement (insertionEdit doc doc.analyze statement) := by
  have hnamespace : doc.analyze.ownNamespace? = doc.ownNamespace? := rfl
  have hdeclarations : doc.analyze.declarations = doc.declarations := rfl
  have himport := @PlacedAt.behindImport doc statement
  unfold Document.namespaceStop at himport
  unfold insertionEdit
  rw [hnamespace, hdeclarations]
  cases hn : doc.ownNamespace? with
  | some n =>
    rw [hn] at himport
    dsimp only
    rcases lastImport?_cases doc.declarations n.statement.stop with ⟨hnone, hbefore⟩ |
        ⟨last, hlast, -⟩
    · rw [hnone]
      exact .behindNamespace hn hbefore
    · rw [hlast]
      exact himport hlast
  | none =>
    rw [hn] at himport
    dsimp only
    rcases lastImport?_cases doc.declarations 0 with ⟨hnone, hbefore⟩ | ⟨last, hlast, -⟩
    · have hnil : doc.declarations = [] :=
        List.eq_nil_iff_forall_not_mem.mpr fun d hd => absurd (hbefore d hd) (Nat.not_lt_zero _)
      rw [hnone]
      dsimp only
      cases htag : doc.openTag? with
      | some tag => exact .behindTag hnil hn htag
      | none => exact .inFront hnil hn htag
    · rw [hlast]
      exact himport hlast

section Placement

variable {m : Mode} (hview : viewFrom [] m doc.text = .ok doc.code)

include hview

/-- Behind the line on which the last import ends no import goes on. -/
theorem uncrossed_behind_last {offset : Nat} {last : Declaration}
    (hlast : lastImport? doc.declarations offset = some last) :
    Uncrossed doc.code (nextLineStart doc.text (lineExtent doc.text last.statement).2) := by
  rcases lastImport?_cases doc.declarations offset with ⟨hnone, -⟩ | ⟨l, hl, hmem, hle, hmax⟩
  · rw [hnone] at hlast
    cases hlast
  obtain rfl : l = last := Option.some.inj (hl.symm.trans hlast)
  obtain ⟨A, S, Y, hstretch⟩ := (importRow_declarations hview).stretch l hmem
  have hbehind : l.statement.stop ≤ nextLineStart doc.text (lineExtent doc.text l.statement).2 := by
    rw [hstretch.text, hstretch.span, lineExtent_append hstretch.last, ← List.append_assoc,
      nextLineStart_append, byteLength_append]
    exact Nat.le_add_right _ _
  intro d hd
  obtain ⟨d', hd', hstatement⟩ := exists_import_eq hd
  left
  rw [← hstatement]
  by_cases hstart : offset ≤ d'.statement.start
  · exact Nat.le_trans (hmax d' hd' hstart) hbehind
  · have hlt := hstretch.start_lt
    rcases statements_apart hd' hmem with heq | hapart | hapart
    · rw [heq]
      exact hbehind
    · omega
    · omega

/-- A namespace declaration ends in the text with a stop. -/
theorem exists_namespaceStop (hn : doc.ownNamespace? = some n) :
    ∃ A e B, doc.text = A ++ e :: B ∧ isStop e = true ∧ n.statement.stop = byteLength A + 1 ∧
      n.statement.start < byteLength A := by
  obtain ⟨c, hc, rfl⟩ := Option.map_eq_some_iff.mp hn
  obtain ⟨k, g, name, g', e, hclause⟩ := exists_namespaceText (List.mem_of_find?_eq_some hc)
  have hcode : doc.code = c.delimiter.before.reverse ++ e :: c.stop.after := by
    rw [hclause.delimiter, List.append_assoc]
    exact hclause.text
  have hstop : isStop e = true ∧ isSpace e = false ∧ e.utf8Size = 1 := by
    rcases hclause.ends with rfl | rfl <;> decide
  rw [hcode] at hview
  obtain ⟨A, B, known, m', htext, hwalk, -⟩ := exists_split_of_visible hview hstop.2.1
  have hlength := hwalk.byteLength_eq
  refine ⟨A, e, B, htext, hstop.1, ?_, ?_⟩
  · change c.stop.offset = _
    rw [offset, hclause.stop, byteLength_cons, ← byteLength_reverse, hlength,
      hstop.2.2, Nat.add_comm]
  · obtain ⟨y, v, hcons, -, -⟩ := hclause.exists_cons
    rw [← hlength, hclause.delimiter, hcons, byteLength_append, byteLength_cons, byteLength_reverse]
    have := y.utf8Size_pos
    change c.start.offset < _
    rw [offset]
    omega

/-- Behind the line on which the namespace declaration begins no import goes on, if none comes
behind the declaration. -/
theorem uncrossed_behind_namespace (hn : doc.ownNamespace? = some n)
    (hbefore : ∀ d ∈ doc.declarations, d.statement.start < n.statement.stop) {l : Nat}
    (hl : lineOf doc.text n.statement.start < l) : Uncrossed doc.code (lineStart doc.text l) := by
  obtain ⟨A, e, B, htext, -, -, hlt⟩ := exists_namespaceStop hview hn
  obtain ⟨c, hc, rfl⟩ := Option.map_eq_some_iff.mp hn
  have hmem := List.mem_of_find?_eq_some hc
  have hstarts := List.find?_some hc
  have hinside : c.start.offset < byteLength doc.text := by
    rw [htext, byteLength_append]
    exact Nat.lt_add_right _ hlt
  intro d hd
  obtain ⟨d', hd', hstatement⟩ := exists_import_eq hd
  left
  rcases namespace_apart hmem hstarts hd with hstop | hstart
  · exact Nat.le_trans hstop (Nat.le_of_lt (lt_lineStart hinside hl))
  · have := hbefore d' hd'
    rw [hstatement] at this
    exact absurd hstart (Nat.not_le.mpr this)

/-- **No import reaches over the place of a new one.** -/
theorem uncrossed_insertion (statement : String) :
    Uncrossed doc.code (insertionEdit doc doc.analyze statement).span.start := by
  have hnone : doc.declarations = [] → ∀ n, Uncrossed doc.code n := fun hnil n d hd => by
    obtain ⟨d', hd', -⟩ := exists_import_eq hd
    rw [hnil] at hd'
    cases hd'
  have hplaced := placedAt_insertionEdit doc statement
  generalize insertionEdit doc doc.analyze statement = e at hplaced ⊢
  cases hplaced with
  | behindImport hlast =>
    rw [insertAfterLine_span]
    exact uncrossed_behind_last hview hlast
  | behindNamespace hn hbefore =>
    dsimp only [insertAfterNamespace]
    split
    · rw [insertAfterLine_span]
      exact uncrossed_behind_namespace hview hn hbefore (by omega)
    · rw [insertAfterLine_span]
      exact uncrossed_behind_namespace hview hn hbefore (by omega)
  | behindTag hnil => exact hnone hnil _
  | inFront hnil => exact hnone hnil _

end Placement

end UseImports
