import UseImports.Proofs.Code.Bytes
import UseImports.Proofs.Declaration.Found
import Mathlib.Data.List.Induction

/-!
# Import regions and the nesting of braces

The regions (`import_level_regions`) are found with a stack of open braces. What the stack holds can
be told without one: a brace is open as long as behind it no more braces are closed than opened,
however far one reads. Closing braces with nothing open play no part in this, since they stand in
front of every brace that is still open. So the regions are the bytes at which only braces of
namespaces are open, less the braces that open something else.

* `StaysOpen`, `IsOpenBrace`: the braces that are open in front of an offset.
* `IsNamespaceBrace`: the braces of namespace clauses.
* `getElem?_openBraces`: **the stack holds the open braces**, the innermost first.
* `regionsFrom_increasing`: the regions come one behind the other.
* `importRegions_nesting`: the regions in terms of the open braces.
-/

namespace UseImports

open Cursor

variable {bs : List UInt8} {depth i k : Nat} {b : UInt8} {c : Char} {a : List Char}

/-! ## Open braces -/

/-- However far one reads, no more braces are closed than opened. -/
def StaysOpen (bs : List UInt8) : Prop :=
  ∀ w, w <+: bs → w.count 0x7d ≤ w.count 0x7b

/-- At the offset `i` of the bytes stands a brace that is open at their end. -/
def IsOpenBrace (bs : List UInt8) (i : Nat) : Prop :=
  ∃ x y, bs = x ++ 0x7b :: y ∧ x.length = i ∧ StaysOpen y

/-- A brace that is open at the end of the bytes, and how many others are open behind it. -/
def OpenAtDepth (bs : List UInt8) (i depth : Nat) : Prop :=
  ∃ x y, bs = x ++ 0x7b :: y ∧ x.length = i ∧ StaysOpen y ∧ y.count 0x7b = y.count 0x7d + depth

theorem isOpenBrace_iff : IsOpenBrace bs i ↔ ∃ depth, OpenAtDepth bs i depth := by
  constructor
  · rintro ⟨x, y, hbs, hx, hy⟩
    have := hy y (List.prefix_refl y)
    exact ⟨y.count 0x7b - y.count 0x7d, x, y, hbs, hx, hy, by omega⟩
  · rintro ⟨depth, x, y, hbs, hx, hy, -⟩
    exact ⟨x, y, hbs, hx, hy⟩

theorem staysOpen_concat :
    StaysOpen (bs ++ [b]) ↔ StaysOpen bs ∧ (bs ++ [b]).count 0x7d ≤ (bs ++ [b]).count 0x7b := by
  constructor
  · intro h
    exact ⟨fun w hw => h w (hw.trans (List.prefix_append _ _)), h _ (List.prefix_refl _)⟩
  · rintro ⟨h, hwhole⟩ w hw
    rcases List.prefix_concat_iff.mp hw with rfl | hw
    · exact hwhole
    · exact h w hw

/-- **One more byte.** A brace that is open behind it is that byte, or was open before, and the
depth of those goes up by an opening brace and down by a closing one. -/
theorem openAtDepth_concat :
    OpenAtDepth (bs ++ [b]) i depth ↔ (b = 0x7b ∧ i = bs.length ∧ depth = 0) ∨
      ∃ k, k + [b].count 0x7b = depth + [b].count 0x7d ∧ OpenAtDepth bs i k := by
  constructor
  · rintro ⟨x, y, hbs, rfl, hy, hdepth⟩
    rcases List.eq_nil_or_concat y with rfl | ⟨y, c, rfl⟩
    · obtain ⟨rfl, hb⟩ := List.append_inj' hbs rfl
      exact .inl ⟨(List.cons.inj hb).1, rfl, by simpa using hdepth.symm⟩
    · rw [List.concat_eq_append] at hbs hy hdepth
      rw [← List.cons_append, ← List.append_assoc] at hbs
      obtain ⟨rfl, hb⟩ := List.append_inj' hbs rfl
      obtain rfl := (List.cons.inj hb).1
      have hbefore := (staysOpen_concat.mp hy).1
      have := hbefore y (List.prefix_refl y)
      rw [List.count_append, List.count_append] at hdepth
      exact .inr ⟨y.count 0x7b - y.count 0x7d, by omega, x, y, rfl, rfl, hbefore, by omega⟩
  · rintro (⟨rfl, rfl, rfl⟩ | ⟨k, hk, x, y, rfl, rfl, hy, hdepth⟩)
    · refine ⟨bs, [], rfl, rfl, fun w hw => ?_, rfl⟩
      rw [List.prefix_nil.mp hw]
      exact Nat.le_refl _
    · have hcount : (y ++ [b]).count 0x7b = (y ++ [b]).count 0x7d + depth := by
        rw [List.count_append, List.count_append]
        omega
      exact ⟨x, y ++ [b], by simp, rfl, staysOpen_concat.mpr ⟨hy, by omega⟩, hcount⟩

theorem openAtDepth_open : OpenAtDepth (bs ++ [0x7b]) i depth ↔
    (i = bs.length ∧ depth = 0) ∨ ∃ k, depth = k + 1 ∧ OpenAtDepth bs i k := by
  rw [openAtDepth_concat]
  refine or_congr (by simp) (exists_congr fun k => and_congr_left fun _ => ?_)
  exact eq_comm

theorem openAtDepth_close : OpenAtDepth (bs ++ [0x7d]) i depth ↔ OpenAtDepth bs i (depth + 1) := by
  rw [openAtDepth_concat, or_iff_right (by rintro ⟨h, -⟩; revert h; decide)]
  exact exists_eq_left

/-- Bytes that are no braces open and close nothing. -/
theorem openAtDepth_plain {w : List UInt8} (hw : ∀ b ∈ w, b ≠ 0x7b ∧ b ≠ 0x7d) :
    OpenAtDepth (bs ++ w) i depth ↔ OpenAtDepth bs i depth := by
  induction w generalizing bs with
  | nil => rw [List.append_nil]
  | cons b w ih =>
    obtain ⟨hopen, hclose⟩ := hw b List.mem_cons_self
    have hcount : [b].count 0x7b = 0 ∧ [b].count 0x7d = 0 := by simp [hopen, hclose]
    rw [← List.singleton_append, ← List.append_assoc, ih fun c hc =>
      hw c (List.mem_cons_of_mem b hc), openAtDepth_concat, or_iff_right fun h => hopen h.1,
      hcount.1, hcount.2]
    exact exists_eq_left

/-! ## The stack -/

/-- The bytes of a character are no braces, unless it is one. -/
theorem ne_brace_of_mem_utf8EncodeChar (hopen : c ≠ '{') (hclose : c ≠ '}')
    (hb : b ∈ String.utf8EncodeChar c) : b ≠ 0x7b ∧ b ≠ 0x7d := by
  have hbytes : b ∈ utf8Bytes [c] := by rw [utf8Bytes_cons]; exact List.mem_append_left _ hb
  have hcount : ∀ {x : UInt8}, isWide (byteChar x) = false → c ≠ byteChar x → b ≠ x := by
    rintro x hx hne rfl
    have hzero : (utf8Bytes [c]).count b = 0 := by
      rw [count_utf8Bytes hx, List.count_eq_zero, List.mem_singleton]
      exact Ne.symm hne
    exact List.count_eq_zero.mp hzero hbytes
  exact ⟨hcount (by decide) hopen, hcount (by decide) hclose⟩

/-- **The stack holds the open braces**, the innermost first. -/
theorem getElem?_openBraces (opens : Nat → Bool) (a : List Char) (depth : Nat) (mark : Bool) :
    (openBraces opens 0 [] a)[depth]? = some mark ↔ ∃ i, OpenAtDepth (utf8Bytes a) i depth ∧
    opens i = mark := by
  -- on the last character, which is what pushes or pops
  induction a using List.reverseRecOn generalizing depth with
  | nil =>
    simp only [openBraces_nil, List.getElem?_nil, reduceCtorEq, false_iff, not_exists, not_and]
    rintro i ⟨x, y, h, -⟩
    exact absurd h (by simp [utf8Bytes])
  | append_singleton a c ih =>
    have hstack : openBraces opens 0 [] (a ++ [c]) =
        braceStep (opens (byteLength a)) (openBraces opens 0 [] a) c := by
      rw [openBraces_append, Nat.zero_add]
      rfl
    rw [hstack, utf8Bytes_append]
    unfold braceStep
    by_cases hopen : c = '{'
    · subst hopen
      have hbyte : utf8Bytes ['{'] = [0x7b] := by decide
      simp only [if_pos, hbyte, openAtDepth_open]
      cases depth with
      | zero =>
        rw [List.getElem?_cons_zero, Option.some_inj]
        constructor
        · exact fun h => ⟨byteLength a, .inl ⟨(length_utf8Bytes a).symm, rfl⟩, h⟩
        · rintro ⟨i, ⟨rfl, -⟩ | ⟨k, hk, -⟩, h⟩
          · rwa [length_utf8Bytes] at h
          · cases hk
      | succ depth =>
        rw [List.getElem?_cons_succ, ih]
        refine exists_congr fun i => and_congr_left fun _ => ⟨fun h => .inr ⟨depth, rfl, h⟩, ?_⟩
        rintro (⟨-, hk⟩ | ⟨k, hk, h⟩)
        · cases hk
        · rwa [Nat.succ.inj hk]
    · by_cases hclose : c = '}'
      · subst hclose
        have hbyte : utf8Bytes ['}'] = [0x7d] := by decide
        simp only [if_neg hopen, if_pos, hbyte, openAtDepth_close, List.getElem?_drop,
          Nat.add_comm 1, ih]
      · have hplain : ∀ b ∈ utf8Bytes [c], b ≠ 0x7b ∧ b ≠ 0x7d := by
          intro b hb
          rw [utf8Bytes_cons, utf8Bytes_nil, List.append_nil] at hb
          exact ne_brace_of_mem_utf8EncodeChar hopen hclose hb
        simp only [if_neg hopen, if_neg hclose, openAtDepth_plain hplain, ih]

/-- All marks of the stack are set if all open braces have the mark. -/
theorem all_openBraces_iff (opens : Nat → Bool) (a : List Char) :
    (openBraces opens 0 [] a).all id = true ↔ ∀ i, IsOpenBrace (utf8Bytes a) i →
    opens i = true := by
  rw [List.all_eq_true]
  constructor
  · intro h i hi
    obtain ⟨depth, hdepth⟩ := isOpenBrace_iff.mp hi
    have hmem :=
      List.mem_of_getElem? ((getElem?_openBraces opens a depth (opens i)).mpr ⟨i, hdepth, rfl⟩)
    exact h _ hmem
  · intro h mark hmark
    obtain ⟨depth, hdepth⟩ := List.getElem?_of_mem hmark
    obtain ⟨i, hi, rfl⟩ := (getElem?_openBraces opens a depth mark).mp hdepth
    exact h i (isOpenBrace_iff.mpr ⟨depth, hi⟩)

/-! ## The order of the regions -/

/-- **The regions come one behind the other**, and none reaches behind the code. -/
theorem regionsFrom_increasing (opens : Nat → Bool) {offset : Nat} {braces : List Bool}
    {region : Option Nat} (hstart : ∀ s, region = some s → s ≤ offset) (cs : List Char) :
    (∀ s ∈ regionsFrom opens offset braces region cs, s.start ≤ s.stop ∧
      s.stop ≤ offset + byteLength cs) ∧
      (regionsFrom opens offset braces region cs).Pairwise fun s t => s.stop < t.start := by
  induction cs generalizing offset braces region with
  | nil =>
    cases region with
    | none => exact ⟨by simp [regionsFrom], .nil⟩
    | some start =>
      refine ⟨fun s hs => ?_, List.pairwise_singleton _ _⟩
      rw [regionsFrom, List.mem_singleton] at hs
      rw [hs]
      exact ⟨hstart start rfl, Nat.le_refl _⟩
  | cons c cs ih =>
    have hpos := c.utf8Size_pos
    -- what follows is in order, wherever the region that is open there starts
    have hrest : ∀ {o : Nat} {braces : List Bool} {region : Option Nat}, o = offset + c.utf8Size →
        (∀ s, region = some s → s ≤ o) →
        (∀ s ∈ regionsFrom opens o braces region cs, s.start ≤ s.stop ∧
          s.stop ≤ offset + byteLength (c :: cs)) ∧
          (regionsFrom opens o braces region cs).Pairwise fun s t => s.stop < t.start := by
      rintro o braces region rfl hle
      have := @ih _ braces _ hle
      rwa [Nat.add_assoc] at this
    have hlater : ∀ s, region = some s → s ≤ offset + c.utf8Size := fun s hs => by
      have := hstart s hs
      omega
    rw [regionsFrom_cons]
    by_cases hopen : c = '{'
    · have hsize : offset + 1 = offset + c.utf8Size := by rw [hopen, utf8Size_brace.1]
      rw [if_pos hopen]
      split
      · exact hrest hsize (hsize ▸ hlater)
      · have hnone := @hrest (offset + 1) (false :: braces) none hsize (by simp)
        cases region with
        | none => exact hnone
        | some start =>
          refine ⟨fun s hs => ?_, List.pairwise_cons.mpr ⟨fun t ht => ?_, hnone.2⟩⟩
          · rcases List.mem_cons.mp hs with rfl | hs
            · exact ⟨hstart start rfl, Nat.le_add_right _ _⟩
            · exact hnone.1 s hs
          · rcases start_of_mem_regionsFrom ht with h | h
            · cases h
            · exact h
    · rw [if_neg hopen]
      by_cases hclose : c = '}'
      · have hsize : offset + 1 = offset + c.utf8Size := by rw [hclose, utf8Size_brace.2]
        rw [if_pos hclose]
        refine hrest hsize fun s hs => ?_
        split at hs
        · exact Nat.le_of_eq (Option.some.inj hs).symm
        · exact hsize ▸ hlater s hs
      · rw [if_neg hclose]
        exact hrest rfl hlater

/-! ## Every byte of a code -/

/-- Every offset in a text lies in one of its characters. -/
theorem exists_char_at {cs : List Char} {p : Nat} (h : p < byteLength cs) :
    ∃ a c b k, cs = a ++ c :: b ∧ p = byteLength a + k ∧ k < c.utf8Size := by
  induction cs generalizing p with
  | nil => exact absurd h (Nat.not_lt_zero p)
  | cons c cs ih =>
    by_cases hp : p < c.utf8Size
    · exact ⟨[], c, cs, p, rfl, (Nat.zero_add p).symm, hp⟩
    · rw [byteLength_cons] at h
      obtain ⟨a, d, b, k, rfl, hk, hlt⟩ := ih (p := p - c.utf8Size) (by omega)
      exact ⟨c :: a, d, b, k, rfl, by rw [byteLength_cons]; omega, hlt⟩

/-- At the offset stands the brace of a namespace clause: the keyword, a name and the brace, with
white space around the name. -/
def IsNamespaceBrace (code : List Char) (o : Nat) : Prop :=
  ∃ P k g name g' R, NamespaceAt code P k g name g' '{' R ∧
    o = byteLength (P ++ (k ++ (g ++ (name ++ g'))))

theorem contains_namespaceBraces_iff {code : List Char} {o : Nat} :
    (namespaceBraces code).contains o = true ↔ IsNamespaceBrace code o := by
  rw [List.contains_iff_mem]
  exact mem_namespaceBraces_iff

/-- The bytes in front of one of the bytes of a character have the braces of the characters in
front. -/
theorem isOpenBrace_take {b : List Char} (hk : k < c.utf8Size) (i : Nat) :
    IsOpenBrace ((utf8Bytes (a ++ c :: b)).take (byteLength a + k)) i ↔
      IsOpenBrace (utf8Bytes a) i := by
  have htake : (utf8Bytes (a ++ c :: b)).take (byteLength a + k) =
      utf8Bytes a ++ (String.utf8EncodeChar c).take k := by
    rw [utf8Bytes_append, utf8Bytes_cons, ← length_utf8Bytes a, List.take_length_add_append,
      List.take_append_of_le_length (by rw [String.length_utf8EncodeChar]; omega)]
  have hplain : ∀ x ∈ (String.utf8EncodeChar c).take k, x ≠ 0x7b ∧ x ≠ 0x7d := by
    intro x hx
    by_cases hbrace : c = '{' ∨ c = '}'
    · -- a brace is one byte, and nothing of it stands in front
      have hsize : c.utf8Size = 1 := by rcases hbrace with rfl | rfl <;> decide
      obtain rfl : k = 0 := by omega
      simp at hx
    · exact ne_brace_of_mem_utf8EncodeChar (fun h => hbrace (.inl h)) (fun h =>
        hbrace (.inr h)) (List.mem_of_mem_take hx)
  rw [htake, isOpenBrace_iff, isOpenBrace_iff]
  exact exists_congr fun depth => openAtDepth_plain hplain

/-- One of the bytes of a character is an opening brace only if the character is. -/
theorem getElem?_utf8Bytes_brace {b : List Char} (hk : k < c.utf8Size) :
    (utf8Bytes (a ++ c :: b))[byteLength a + k]? = some 0x7b ↔ c = '{' := by
  have hbyte : (utf8Bytes (a ++ c :: b))[byteLength a + k]? = (String.utf8EncodeChar c)[k]? := by
    rw [utf8Bytes_append, utf8Bytes_cons, ← length_utf8Bytes a,
      List.getElem?_append_right (Nat.le_add_right _ _),
      Nat.add_sub_cancel_left,
      List.getElem?_append_left (by rw [String.length_utf8EncodeChar]; exact hk)]
  rw [hbyte]
  constructor
  · intro h
    by_contra hne
    by_cases hclose : c = '}'
    · subst hclose
      obtain rfl : k = 0 := by rw [utf8Size_brace.2] at hk; omega
      exact absurd h (by decide)
    · exact (ne_brace_of_mem_utf8EncodeChar hne hclose (List.mem_of_getElem? h)).1 rfl
  · rintro rfl
    obtain rfl : k = 0 := by rw [utf8Size_brace.1] at hk; omega
    decide

/-- **The import regions are told from the nesting of braces.** They come one behind the other, and
a byte lies in one of them if all braces that are open in front of it are those of namespaces and
the byte opens no other. -/
theorem importRegions_nesting (d : Document) :
    (∀ s ∈ d.importRegions, s.start ≤ s.stop) ∧
    (d.importRegions.Pairwise fun s t => s.stop < t.start) ∧
      ∀ p, (∃ s ∈ d.importRegions, s.contains p = true) ↔
        p < byteLength d.code ∧
        (∀ i, IsOpenBrace ((utf8Bytes d.code).take p) i → IsNamespaceBrace d.code i) ∧
        ¬ ((utf8Bytes d.code)[p]? = some 0x7b ∧ ¬ IsNamespaceBrace d.code p) := by
  obtain ⟨text, code⟩ := d
  have hregions : (Document.mk text code).importRegions =
      regionsFrom ((namespaceBraces code).contains ·) 0 [] (some 0) code := rfl
  obtain ⟨hwithin, hincreasing⟩ :=
    @regionsFrom_increasing ((namespaceBraces code).contains ·) 0 [] (some 0) (by simp) code
  rw [← hregions] at hwithin hincreasing
  refine ⟨fun s hs => (hwithin s hs).1, hincreasing, fun p => ?_⟩
  dsimp only
  by_cases hp : p < byteLength code
  · obtain ⟨a, c, b, k, rfl, rfl, hk⟩ := exists_char_at hp
    have hcontains := importRegions_contains_byte text a hk b
    rw [and_iff_right hp, ← List.any_eq_true, hcontains, Bool.and_eq_true, importLevel, bracesAt,
      all_openBraces_iff, getElem?_utf8Bytes_brace hk]
    simp only [isOpenBrace_take hk, contains_namespaceBraces_iff, Bool.or_eq_true, bne_iff_ne]
    refine and_congr_right fun _ => ?_
    by_cases hc : c = '{'
    · obtain rfl : k = 0 := by rw [hc, utf8Size_brace.1] at hk; omega
      rw [Nat.add_zero]
      simp [hc]
    · simp [hc]
  · refine ⟨?_, fun h => absurd h.1 hp⟩
    rintro ⟨s, hs, hc⟩
    have hstop := (hwithin s hs).2
    have := (Span.contains_iff.mp hc).2
    omega

end UseImports
