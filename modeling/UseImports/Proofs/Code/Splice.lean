import UseImports.Proofs.Declaration.Plain
import UseImports.Proofs.Text.LineSplit

/-!
# Cutting and joining layouts

White space can be taken off a gap at either end, two gaps make one, and plain statements can be put
where a statement may begin. In each case the text is laid out again, and the pieces that are not
touched stay.

* `Gap.append`, `Gap.of_space`, `Gap.drop_space`, `Gap.upToLead`: gaps.
* `widen`: pieces with more text in front.
* `Layout.widen`, `Layout.drop_space`, `Layout.plain`: **layouts.**
-/

namespace UseImports

open Placed Cursor

variable {G g sep W ws Y y : List Char} {m : Mode} {d : Declaration} {ps : List Piece}
    {ds : List Declaration}

/-! ## Import places in front of white space -/

theorem scanState_isSpace (hws : ∀ c ∈ ws, isSpace c = true) (inBraces sawName : Bool) :
    scanState inBraces sawName ws = some (inBraces, sawName) := by
  induction ws with
  | nil => rfl
  | cons c ws ih =>
    have hstep : scanStep inBraces sawName c = some (inBraces, sawName) := by
      have hc := hws c List.mem_cons_self
      rcases isSpace_cases hc with rfl | rfl | rfl | rfl | rfl <;> rfl
    rw [scanState, hstep, Option.bind_some]
    exact ih fun x hx => hws x (List.mem_cons_of_mem c hx)

/-- White space does not finish a statement. -/
theorem scanState_of_space {inBraces sawName : Bool} {cs : List Char}
    (hws : ∀ c ∈ ws, isSpace c = true) (h : scanState inBraces sawName (cs ++ ws) = none) :
    scanState inBraces sawName cs = none := by
  induction cs generalizing inBraces sawName with
  | nil =>
    rw [List.nil_append, scanState_isSpace hws] at h
    cases h
  | cons c cs ih =>
    rw [List.cons_append, scanState] at h
    rw [scanState]
    cases hstep : scanStep inBraces sawName c with
    | none => rfl
    | some state =>
      rw [hstep, Option.bind_some] at h
      exact ih h

/-- A statement may also begin in front of white space. -/
theorem Opens.of_space (h : Opens (g ++ ws).reverse) (hws : ∀ c ∈ ws, isSpace c = true) :
    Opens g.reverse := by
  have hall : ∀ c ∈ ws.reverse, isSpace c = true := fun c hc => hws c (List.mem_reverse.mp hc)
  unfold Opens startsStatement at h ⊢
  rwa [List.reverse_append, List.dropWhile_append_of_pos hall] at h

/-- White space opens and closes no braces. -/
theorem importLevel_of_space (hopens : Opens g.reverse) (hws : ∀ c ∈ ws, isSpace c = true)
    (h : importLevel (g ++ ws) (g ++ ws) = true) : importLevel g g = true := by
  have hbraces : bracesAt (g ++ ws) (g ++ ws) = bracesAt (g ++ ws) g := by
    unfold bracesAt
    rw [openBraces_append, openBraces_of_plain]
    intro c hc
    have hspace := hws c hc
    constructor
    · rintro rfl
      exact absurd hspace (by decide)
    · rintro rfl
      exact absurd hspace (by decide)
  rw [← importLevel_front hopens ws (List.prefix_refl g)]
  unfold importLevel at h ⊢
  rwa [hbraces] at h

/-- An import place stays one without the white space in front of it. -/
theorem ImportPlace.of_space (h : ImportPlace (g ++ ws)) (hws : ∀ c ∈ ws, isSpace c = true) :
    ImportPlace g := by
  have hopens := h.opens.of_space hws
  refine ⟨hopens, importLevel_of_space hopens hws h.level, fun k s hmem hsite => ?_⟩
  have hmoved : (k.within [] ws, s.within [] ws) ∈ useStarts (g ++ ws) := by
    rw [useStarts_append hopens]
    exact List.mem_append_left _ (List.mem_map_of_mem hmem)
  have := h.finished _ _ hmoved (by rw [isSite_front hopens ws hmem]; exact hsite)
  rw [within_after] at this
  exact scanState_of_space hws this

/-! ## The start of a line -/

/-- White space on the last line can be taken off the end of a walk. -/
theorem Walk.exists_upToLead {B a : List Char} (h : Walk B [] m G a [] .code) (hm : m.Proper)
    (hB : B ≠ []) (hlead : ∀ c ∈ lead G, isSpace c = true) :
    ∃ a', a = a' ++ lead G ∧ ∀ R, Walk R [] m (upToLead G) a' [] .code := by
  rw [← upToLead_append_lead G] at h
  obtain ⟨a₁, a₂, known, m', rfl, h₁, h₂⟩ := h.split
  have hident : ∀ c ∈ lead G, isIdentChar c = false := fun c hc =>
    Bool.eq_false_iff.mpr fun hident => by
    have hspace := hlead c hc
    rw [(of_isIdentChar hident).2.1] at hspace
    cases hspace
  obtain rfl := h₁.known_eq_nil_of_lead (atLineStart_upToLead G) h₂ hB hident
  -- white space inside a line is read in one mode
  obtain ⟨w, hblanks⟩ := Walk.of_blanks (h₁.proper hm)
    (fun c hc => ⟨isBlank_of_isSpace (hlead c hc), fun hbreak => not_mem_lead G (hbreak ▸ hc)⟩) B
  obtain ⟨-, -, rfl⟩ := h₂.unique hblanks
  have hsame : a₂ = lead G := h₂.eq_of_isPlain fun c hc => isPlain_of_isSpace (hlead c hc)
  have hne : lead G ++ B ≠ [] := List.append_ne_nil_of_right_ne_nil _ hB
  exact ⟨a₁, by rw [hsame], h₁.independent_of_break hne (atLineStart_upToLead G)⟩

/-! ## Gaps -/

namespace Gap

theorem append {H h : List Char} (hG : Gap m G g) (hH : Gap .code H h) :
    Gap m (G ++ H) (g ++ h) where
  walk R := (hG.walk (H ++ R)).trans (hH.walk R)
  place := (importPlace_append_iff hG.place h).mpr hH.place
  none := by
    rw [imports_append hG.place, hG.none, hH.none]
    rfl
  closed := by
    rw [List.getLast?_append]
    cases hlast : H.getLast? with
    | none => exact hG.closed
    | some c => exact fun heq => hH.closed (hlast.trans heq)

theorem of_space (hW : ∀ c ∈ W, isSpace c = true) : Gap .code W W where
  walk := Walk.of_isPlain fun c hc => isPlain_of_isSpace (hW c hc)
  place := (Run.of_space hW).importPlace
  none := imports_of_isSpace hW
  closed hlast := absurd (hW '<' (List.mem_of_getLast? hlast)) (by decide)

/-- White space can be taken off the front of a gap. -/
theorem drop_space (hW : ∀ c ∈ W, isSpace c = true) (h : Gap .code (W ++ G) g) :
    ∃ g', g = W ++ g' ∧ Gap .code G g' := by
  have hsettles : Settles .code W W .code :=
    settles_of_isPlain fun c hc => isPlain_of_isSpace (hW c hc)
  obtain ⟨g', rfl, -⟩ := h.settles.cancel hsettles
  have hplace : ImportPlace W := (Run.of_space hW).importPlace
  refine ⟨g', rfl, ?_, (importPlace_append_iff hplace g').mp h.place, ?_, ?_⟩
  · intro R
    obtain ⟨a₁, a₂, known, m, heq, h₁, h₂⟩ := (h.walk R).split
    have hsame := Walk.of_isPlain (fun c hc => isPlain_of_isSpace (hW c hc)) (G ++ R)
    obtain ⟨rfl, rfl, rfl⟩ := hsame.unique h₁
    rwa [← List.append_cancel_left heq] at h₂
  · have := h.none
    rw [imports_append hplace] at this
    exact List.map_eq_nil_iff.mp (List.append_eq_nil_iff.mp this).2
  · intro hlast
    refine h.closed ?_
    rw [List.getLast?_append, hlast]
    rfl

/-- White space on the last line can be taken off the end of a gap. -/
theorem upToLead (h : Gap m G g) (hm : m.Proper) (hlead : ∀ c ∈ lead G, isSpace c = true) :
    ∃ g', g = g' ++ lead G ∧ Gap m (UseImports.upToLead G) g' := by
  obtain ⟨a', rfl, hwalk⟩ := (h.walk [';']).exists_upToLead hm (List.cons_ne_nil _ _) hlead
  have hplace : ImportPlace a' := h.place.of_space hlead
  have hclosed : (UseImports.upToLead G).getLast? ≠ some '<' := by
    rcases atLineStart_upToLead G with hnil | hlast
    · rw [hnil]
      simp
    · rw [hlast]
      decide
  refine ⟨a', rfl, hwalk, hplace, ?_, hclosed⟩
  have := h.none
  rw [imports_append hplace] at this
  exact (List.append_eq_nil_iff.mp this).1

end Gap

/-! ## Layouts -/

/-- The pieces with more text in front of the first gap. -/
def widen (G g : List Char) : List Piece → List Piece
  | [] => []
  | p :: ps => { p with gap := G ++ p.gap, gapView := g ++ p.gapView } :: ps

/-- What the pieces import. -/
def pieceMeanings (ps : List Piece) : List (String × Option String × ImportKind) :=
  ps.flatMap fun p => (imports p.view).map Declaration.meaning

theorem pieceMeanings_widen (G g : List Char) (ps : List Piece) :
    pieceMeanings (widen G g ps) = pieceMeanings ps := by
  cases ps <;> rfl

theorem map_meaning_declarationsAt (n : Nat) (ps : List Piece) :
    (declarationsAt n ps).map Declaration.meaning = pieceMeanings ps := by
  induction ps generalizing n with
  | nil => rfl
  | cons p ps ih =>
    have hshift : Declaration.meaning ∘ Declaration.shift (n + byteLength p.gap) =
        Declaration.meaning := rfl
    rw [declarationsAt, List.map_append, List.map_map, hshift, ih]
    rfl

theorem declarationsAt_widen (n : Nat) (G g : List Char) (ps : List Piece) :
    declarationsAt n (widen G g ps) = declarationsAt (n + byteLength G) ps := by
  cases ps with
  | nil => rfl
  | cons p ps =>
    simp only [widen, declarationsAt, byteLength_append, Nat.add_assoc]

namespace Layout

/-- The first piece of a layout. -/
theorem exists_cons (h : Layout m Y y ps) (hne : ps ≠ []) :
    ∃ p Z z qs, Y = p.gap ++ (p.statement ++ Z) ∧ y = p.gapView ++ (p.view ++ z) ∧ ps = p :: qs ∧
      p.Sound m ∧ Layout .code Z z qs := by
  cases h with
  | last => exact absurd rfl hne
  | cons hp hrest => exact ⟨_, _, _, _, rfl, rfl, rfl, hp, hrest⟩

/-- A gap may be put in front of a layout. -/
theorem widen (hG : Gap m G g) (h : Layout .code Y y ps) :
    Layout m (G ++ Y) (g ++ y) (UseImports.widen G g ps) := by
  cases h with
  | last hview hnone =>
    refine .last ?_ ?_
    · rw [hG.settles Y, hview]
      rfl
    · rw [imports_append hG.place, hG.none, hnone]
      rfl
  | @cons _ p Y y ps hp hrest =>
    rw [← List.append_assoc G, ← List.append_assoc g]
    exact .cons (p := ⟨G ++ p.gap, g ++ p.gapView, p.statement, p.view⟩)
      ⟨hG.append hp.gap, hp.settles, hp.isStatement, hp.first, hp.last⟩ hrest

/-- White space at the front of a layout may be taken off. -/
theorem drop_space (hW : ∀ c ∈ W, isSpace c = true) (h : Layout .code (W ++ Y) y ps) :
    ∃ y' ps', y = W ++ y' ∧ ps = UseImports.widen W W ps' ∧ Layout .code Y y' ps' := by
  generalize hX : W ++ Y = X at h
  cases h with
  | @last _ _ _ hview hnone =>
    subst hX
    have hsettles : Settles .code W W .code :=
      settles_of_isPlain fun c hc => isPlain_of_isSpace (hW c hc)
    rw [hsettles Y, map_ok_iff] at hview
    obtain ⟨y', hy', rfl⟩ := hview
    refine ⟨y', [], rfl, rfl, .last hy' ?_⟩
    rw [imports_append (Run.of_space hW).importPlace] at hnone
    exact List.map_eq_nil_iff.mp (List.append_eq_nil_iff.mp hnone).2
  | @cons _ p Y' y ps hp hrest =>
    rcases append_eq_append_cases hX with ⟨G, hG, hY⟩ | ⟨c, t, hc, hst⟩
    · obtain ⟨p_gap, p_gapView, S, s⟩ := p
      dsimp only at hG hY ⊢
      subst hG hY
      obtain ⟨g', hg', hgap⟩ := hp.gap.drop_space hW
      dsimp only at hg'
      subst hg'
      refine ⟨g' ++ (s ++ y), ⟨G, g', S, s⟩ :: ps, List.append_assoc _ _ _, rfl, ?_⟩
      exact .cons (p := ⟨G, g', S, s⟩) ⟨hgap, hp.settles, hp.isStatement, hp.first, hp.last⟩ hrest
    · -- the statement does not begin with white space
      exfalso
      obtain ⟨x, S, hS, hx⟩ := hp.first
      obtain rfl : x = c := by
        rw [hS] at hst
        exact (List.cons.inj hst).1
      have := isBlank_of_isSpace (hW x (hc ▸ List.mem_append_right _ List.mem_cons_self))
      rw [hx] at this
      cases this

end Layout

/-- A plain statement behind a gap. -/
theorem Gap.plainPiece (hG : Gap m G g) (hd : d.WellNamed) (hkind : d.Legible) :
    Piece.Sound m ⟨G, g, d.plainStatement.toList, d.plainStatement.toList⟩ where
  gap := hG
  settles := settles_of_isPlain fun c hc => (hd.plain c hc).1
  isStatement := hd.isStatement hkind
  first := ⟨'u', _, toList_plainStatement d, by decide⟩
  last := getLast?_plainStatement d

/-- A plain statement that imports nothing is part of a gap. -/
theorem Gap.of_not_legible (hd : d.WellNamed) (hno : ¬ d.Legible) :
    Gap .code d.plainStatement.toList d.plainStatement.toList where
  walk := Walk.of_isPlain fun c hc => (hd.plain c hc).1
  place := (hd.isNameless hno).importPlace
  none := hd.imports_of_not_legible hno
  closed := by
    rw [getLast?_plainStatement]
    decide

/-- A plain statement can be put where a statement may begin. -/
theorem Layout.plainStatement (hG : Gap m G g) (hd : d.WellNamed) (h : Layout .code Y y ps) :
    ∃ ps', Layout m (G ++ (d.plainStatement.toList ++ Y))
      (g ++ (d.plainStatement.toList ++ y)) ps' ∧
      pieceMeanings ps' = [d.meaning].filter isLegible ++ pieceMeanings ps := by
  by_cases hkind : d.Legible
  · refine ⟨⟨G, g, d.plainStatement.toList, d.plainStatement.toList⟩ :: ps,
      .cons (hG.plainPiece hd hkind) h, ?_⟩
    rw [List.filter_singleton, Declaration.legible_iff.mp hkind, ← hd.meaning_imports hkind]
    rfl
  · refine ⟨UseImports.widen (G ++ d.plainStatement.toList) (g ++ d.plainStatement.toList) ps, ?_,
      ?_⟩
    · rw [← List.append_assoc, ← List.append_assoc]
      exact h.widen (hG.append (.of_not_legible hd hkind))
    · rw [Declaration.legible_iff] at hkind
      simp [pieceMeanings_widen, hkind]

/-- The plain statements of the declarations, with the same text between any two of them. -/
def plainText (sep : List Char) (ds : List Declaration) : List Char :=
  sep.intercalate (ds.map fun d => d.plainStatement.toList)

theorem plainText_cons (sep : List Char) (d e : Declaration) (ds : List Declaration) :
    plainText sep (d :: e :: ds) = d.plainStatement.toList ++ (sep ++ plainText sep (e :: ds)) := by
  simp [plainText, List.intercalate]

theorem mem_plainText {c : Char} (h : c ∈ plainText sep ds) :
    c ∈ sep ∨ ∃ d ∈ ds, c ∈ d.plainStatement.toList := by
  induction ds with
  | nil => cases h
  | cons d ds ih =>
    cases ds with
    | nil =>
      rw [plainText, List.map_singleton, List.intercalate_singleton] at h
      exact .inr ⟨d, List.mem_cons_self, h⟩
    | cons e ds =>
      rw [plainText_cons, List.mem_append, List.mem_append] at h
      rcases h with h | h | h
      · exact .inr ⟨d, List.mem_cons_self, h⟩
      · exact .inl h
      · exact (ih h).imp_right fun ⟨x, hx, hc⟩ => ⟨x, List.mem_cons_of_mem d hx, hc⟩

section Plain

variable (hsep : ∀ c ∈ sep, isSpace c = true) (hwell : ∀ d ∈ ds, d.WellNamed)
include hsep hwell

/-- Plain statements with white space between them are a run. -/
theorem run_plainText : Run (plainText sep ds) := by
  induction ds with
  | nil => exact .nil
  | cons d ds ih =>
    have hd := (hwell d List.mem_cons_self).run
    cases ds with
    | nil => simpa [plainText, List.intercalate] using hd
    | cons e ds =>
      rw [plainText_cons]
      exact hd.append ((Run.of_space hsep).append (ih fun x hx =>
        hwell x (List.mem_cons_of_mem d hx)))

/-- **Plain statements can be put where a statement may begin.** -/
theorem Layout.plain (hG : Gap m G g) (h : Layout .code Y y ps) :
    ∃ ps', Layout m (G ++ (plainText sep ds ++ Y)) (g ++ (plainText sep ds ++ y)) ps' ∧
      pieceMeanings ps' = (ds.map Declaration.meaning).filter isLegible ++ pieceMeanings ps := by
  induction ds generalizing m G g with
  | nil => exact ⟨UseImports.widen G g ps, h.widen hG, pieceMeanings_widen G g ps⟩
  | cons d ds ih =>
    have hd := hwell d List.mem_cons_self
    cases ds with
    | nil => simpa [plainText, List.intercalate] using Layout.plainStatement hG hd h
    | cons e ds =>
      obtain ⟨qs, hrest, hqs⟩ :=
        ih (fun x hx => hwell x (List.mem_cons_of_mem d hx)) (Gap.of_space hsep)
      obtain ⟨ps', hlayout, hps'⟩ := Layout.plainStatement hG hd hrest
      refine ⟨ps', ?_, ?_⟩
      · simpa only [plainText_cons, List.append_assoc] using hlayout
      · rw [hps', hqs, ← List.append_assoc, ← List.filter_append]
        rfl

end Plain

end UseImports
