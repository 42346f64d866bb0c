import UseImports.Edit.NameOrder
import Mathlib.Data.List.TakeWhile
import Mathlib.Order.Std
import Mathlib.Tactic

/-!
# The orders of names are orders

Both orders (`compare`, `natural_cmp`) compare lists of keys lexicographically: the bytes in lower
case, or the tokens of a name, which are its digit runs by their values and its other bytes in lower
case. Where that leaves two names equal, their bytes decide. So each is a total order, and sorting
by it puts a list in order.

* `Token`, `tokens`: a name as the natural order reads it.
* `compareNumerals_eq`: digit runs are compared by their values, however long they are.
* `naturalCompare_eq`: **the natural order is the lexicographic order of the tokens.**
* `SortMode.le_total`, `SortMode.le_trans`: each order is total and transitive.
* `compare_totalOrder`: **each order is a total order**, in which only equal names are equal.
-/

namespace UseImports

variable {a b d : UInt8} {as bs ds : List UInt8}

/-! ## Numerals -/

/-- The number that decimal digits stand for. -/
def numeral (ds : List UInt8) : Nat :=
  ds.foldl (fun n d => 10 * n + (d.toNat - 0x30)) 0

theorem numeral_cons (d : UInt8) (ds : List UInt8) :
    numeral (d :: ds) = (d.toNat - 0x30) * 10 ^ ds.length + numeral ds := by
  have hfold : ∀ n, ds.foldl (fun n d => 10 * n + (d.toNat - 0x30)) n =
      n * 10 ^ ds.length + numeral ds := by
    unfold numeral
    induction ds with
    | nil => simp
    | cons e ds ih =>
      intro n
      rw [List.foldl_cons, List.foldl_cons, ih, ih (10 * 0 + _), List.length_cons, Nat.pow_succ]
      grind
  rw [numeral, List.foldl_cons, hfold, Nat.mul_zero, Nat.zero_add]

/-- Nothing but digits. -/
def AllDigits (ds : List UInt8) : Prop :=
  ∀ d ∈ ds, isDigitByte d = true

theorem AllDigits.tail (h : AllDigits (d :: ds)) : AllDigits ds :=
  fun e he => h e (List.mem_cons_of_mem d he)

theorem isDigitByte_iff : isDigitByte d = true ↔ 0x30 ≤ d.toNat ∧ d.toNat ≤ 0x39 := by
  simp [isDigitByte, UInt8.le_iff_toNat_le]

theorem numeral_lt (h : AllDigits ds) : numeral ds < 10 ^ ds.length := by
  induction ds with
  | nil => simp [numeral]
  | cons d ds ih =>
    have hd := isDigitByte_iff.mp (h d List.mem_cons_self)
    have hrest := ih h.tail
    have hle : (d.toNat - 0x30) * 10 ^ ds.length ≤ 9 * 10 ^ ds.length :=
      Nat.mul_le_mul_right _ (by omega)
    rw [numeral_cons, List.length_cons, Nat.pow_succ]
    omega

/-- A first digit other than zero makes the number as large as its length says. -/
theorem le_numeral (h : AllDigits (d :: ds)) (hd : d ≠ 0x30) :
    10 ^ ds.length ≤ numeral (d :: ds) := by
  have hdigit := isDigitByte_iff.mp (h d List.mem_cons_self)
  have hne : d.toNat ≠ 0x30 := fun heq => hd (UInt8.toNat_inj.mp heq)
  have hle : 1 * 10 ^ ds.length ≤ (d.toNat - 0x30) * 10 ^ ds.length :=
    Nat.mul_le_mul_right _ (by omega)
  rw [numeral_cons]
  omega

theorem compare_toNat (a b : UInt8) : compare a b = compare a.toNat b.toNat := by
  simp only [compare, compareOfLessAndEq, UInt8.lt_iff_toNat_lt, UInt8.toNat_inj]

/-- Of two numbers with as many digits behind the first one, the first digit decides. -/
theorem digit_decides (hab : a.toNat < b.toNat) (ha : 0x30 ≤ a.toNat) (has : AllDigits as)
    (hlength : as.length = bs.length) : numeral (a :: as) < numeral (b :: bs) := by
  have hlt := numeral_lt has
  have hle : (a.toNat - 0x30 + 1) * 10 ^ bs.length ≤ (b.toNat - 0x30) * 10 ^ bs.length :=
    Nat.mul_le_mul_right _ (by omega)
  rw [Nat.add_mul, Nat.one_mul] at hle
  rw [numeral_cons, numeral_cons, hlength]
  rw [hlength] at hlt
  omega

/-- Digit runs of one length are in the order of their values. -/
theorem compareBytes_eq_of_length (has : AllDigits as) (hbs : AllDigits bs)
    (hlength : as.length = bs.length) : compareBytes as bs = compare (numeral as) (numeral bs) := by
  induction as generalizing bs with
  | nil =>
    obtain rfl := List.length_eq_zero_iff.mp hlength.symm
    rfl
  | cons a as ih =>
    obtain ⟨b, bs, rfl⟩ := List.exists_cons_of_length_eq_add_one hlength.symm
    have hlen : as.length = bs.length := Nat.succ.inj hlength
    have ha := isDigitByte_iff.mp (has a List.mem_cons_self)
    have hb := isDigitByte_iff.mp (hbs b List.mem_cons_self)
    rw [compareBytes, List.compareLex_cons_cons, compare_toNat]
    rcases Nat.lt_trichotomy a.toNat b.toNat with h | h | h
    · rw [Nat.compare_eq_lt.mpr h, Nat.compare_eq_lt.mpr (digit_decides h ha.1 has.tail hlen)]
      rfl
    · have hrest := ih has.tail hbs.tail hlen
      rw [compareBytes] at hrest
      rw [Nat.compare_eq_eq.mpr h, Ordering.eq_then, hrest, numeral_cons, numeral_cons, h, hlen]
      simp only [compare, compareOfLessAndEq, Nat.add_lt_add_iff_left, Nat.add_left_cancel_iff]
    · rw [Nat.compare_eq_gt.mpr h, Nat.compare_eq_gt.mpr (digit_decides h hb.1 hbs.tail hlen.symm)]
      rfl

/-- Leading zeros do not count. -/
theorem numeral_dropWhile (ds : List UInt8) : numeral (ds.dropWhile (· == 0x30)) = numeral ds := by
  induction ds with
  | nil => rfl
  | cons d ds ih =>
    rw [List.dropWhile_cons]
    split
    · rename_i hzero
      rw [ih, numeral_cons, beq_iff_eq.mp hzero]
      simp
    · rfl

/-- A digit run without its leading zeros has the same value. It is a single digit or begins with
another digit than zero. -/
theorem significantDigits_spec (hne : ds ≠ []) (h : AllDigits ds) :
    ∃ d rest, significantDigits ds = d :: rest ∧ AllDigits (d :: rest) ∧
      numeral (d :: rest) = numeral ds ∧
      (rest = [] ∨ d ≠ 0x30) := by
  have hvalue := numeral_dropWhile ds
  unfold significantDigits
  split
  · -- all digits are zeros, and the last one stays
    rename_i hnil
    rw [hnil] at hvalue
    have hzeros : ∀ d ∈ ds, d = 0x30 := by simpa using List.dropWhile_eq_nil_iff.mp hnil
    obtain ⟨d, hd⟩ := List.length_eq_one_iff.mp (show (ds.drop (ds.length - 1)).length = 1 by
      have := List.length_pos_iff.mpr hne
      rw [List.length_drop]
      omega)
    have hmem : d ∈ ds := List.mem_of_mem_drop (hd ▸ List.mem_singleton_self d)
    refine ⟨d, [], hd, fun e he => ?_, ?_, .inl rfl⟩
    · rw [List.mem_singleton.mp he]
      exact h d hmem
    · rw [← hvalue, hzeros d hmem]
      rfl
  · rename_i hcons
    cases hdrop : ds.dropWhile (· == 0x30) with
    | nil => exact absurd hdrop hcons
    | cons d rest =>
      have hfirst :=
        List.head_dropWhile_not (· == (0x30 : UInt8)) (by rw [hdrop]; exact List.cons_ne_nil d rest)
      refine ⟨d, rest, rfl, fun e he => ?_, by rw [← hdrop, hvalue], .inr ?_⟩
      · exact h e ((List.dropWhile_sublist _).subset (hdrop ▸ he))
      · simpa [hdrop] using hfirst

/-- The longer of two such runs has the greater value. -/
theorem numeral_lt_of_length (has : AllDigits (a :: as)) (hbs : AllDigits (b :: bs))
    (hb : bs = [] ∨ b ≠ 0x30) (hlength : (a :: as).length < (b :: bs).length) :
    numeral (a :: as) < numeral (b :: bs) := by
  have hlt : as.length < bs.length := Nat.lt_of_succ_lt_succ hlength
  have hne : bs ≠ [] := fun hnil => by simp [hnil] at hlt
  calc numeral (a :: as) < 10 ^ (as.length + 1) := numeral_lt has
    _ ≤ 10 ^ bs.length := Nat.pow_le_pow_right (by omega) hlt
    _ ≤ numeral (b :: bs) := le_numeral hbs (hb.resolve_left hne)

/-- **Digit runs are compared by their values**, however long they are. -/
theorem compareNumerals_eq (hne : as ≠ []) (hne' : bs ≠ []) (has : AllDigits as)
    (hbs : AllDigits bs) : compareNumerals as bs = compare (numeral as) (numeral bs) := by
  obtain ⟨a, as', ha, hdigits, hvalue, hfirst⟩ := significantDigits_spec hne has
  obtain ⟨b, bs', hb, hdigits', hvalue', hfirst'⟩ := significantDigits_spec hne' hbs
  rw [compareNumerals, ha, hb, ← hvalue, ← hvalue']
  rcases Nat.lt_trichotomy (a :: as').length (b :: bs').length with h | h | h
  · rw [Nat.compare_eq_lt.mpr h,
      Nat.compare_eq_lt.mpr (numeral_lt_of_length hdigits hdigits' hfirst' h)]
    rfl
  · rw [Nat.compare_eq_eq.mpr h, Ordering.eq_then, compareBytes_eq_of_length hdigits hdigits' h]
  · rw [Nat.compare_eq_gt.mpr h,
      Nat.compare_eq_gt.mpr (numeral_lt_of_length hdigits' hdigits hfirst h)]
    rfl

/-! ## The tokens of a name -/

/-- A part of a name that the natural order compares as a whole. -/
inductive Token where
  /-- A run of digits, by its value. -/
  | number (value : Nat)
  /-- Any other byte, in lower case. -/
  | byte (b : UInt8)
deriving DecidableEq, Repr

/-- The tokens of a name: its digit runs, each as long as possible, and its other bytes. -/
def tokens : List UInt8 → List Token
  | [] => []
  | b :: bs =>
    if isDigitByte b then .number (numeral (b :: bs.takeWhile isDigitByte)) ::
      tokens (bs.dropWhile isDigitByte)
    else .byte (lowerByte b) :: tokens bs
termination_by bs => bs.length
decreasing_by
  · exact Nat.lt_succ_of_le (List.dropWhile_sublist _).length_le
  · simp

/-- Numbers are compared by value, and bytes as they are. All numbers come behind the bytes below
the digits and in front of those above them. -/
def Token.compare : Token → Token → Ordering
  | .number m, .number n => Ord.compare m n
  | .byte a, .byte b => Ord.compare a b
  | .number _, .byte b => if b < 0x30 then .gt else .lt
  | .byte a, .number _ => if a < 0x30 then .lt else .gt

/-- Where a token stands among all bytes and numbers, up to the value of the number. -/
def Token.rank : Token → Nat
  | .number _ => 2 * 0x30
  | .byte b => 2 * b.toNat + 1

def Token.value : Token → Nat
  | .number n => n
  | .byte _ => 0

theorem Token.compare_eq :
    Token.compare = compareLex (compareOn Token.rank) (compareOn Token.value) := by
  have hscale : ∀ m n : Nat, Ord.compare (2 * m + 1) (2 * n + 1) = Ord.compare m n := fun m n => by
    rcases Nat.lt_trichotomy m n with h | h | h
    · rw [Nat.compare_eq_lt.mpr h, Nat.compare_eq_lt.mpr (by omega)]
    · rw [Nat.compare_eq_eq.mpr h, Nat.compare_eq_eq.mpr (by omega)]
    · rw [Nat.compare_eq_gt.mpr h, Nat.compare_eq_gt.mpr (by omega)]
  funext s t
  cases s with
  | number m =>
    cases t with
    | number n => simp [Token.compare, compareLex, compareOn, rank, value]
    | byte b =>
      simp only [Token.compare, compareLex, compareOn, rank, value, UInt8.lt_iff_toNat_lt]
      split
      · rw [Nat.compare_eq_gt.mpr (by simp_all; omega)]
        rfl
      · rw [Nat.compare_eq_lt.mpr (by simp_all; omega)]
        rfl
  | byte a =>
    cases t with
    | number n =>
      simp only [Token.compare, compareLex, compareOn, rank, value, UInt8.lt_iff_toNat_lt]
      split
      · rw [Nat.compare_eq_lt.mpr (by simp_all; omega)]
        rfl
      · rw [Nat.compare_eq_gt.mpr (by simp_all; omega)]
        rfl
    | byte b => simp [Token.compare, compareLex, compareOn, rank, value, hscale, compare_toNat]

instance : Std.TransCmp Token.compare :=
  Token.compare_eq ▸ inferInstance

theorem lowerByte_of_digit (h : isDigitByte b) : lowerByte b = b := by
  simp only [isDigitByte, lowerByte] at *
  grind

/-- A byte that is no digit stands on the same side of all digits, in lower case too. -/
theorem lowerByte_apart (h : isDigitByte b = false) : lowerByte b < 0x30 ∨ 0x39 < lowerByte b := by
  simp only [isDigitByte, lowerByte] at *
  grind

/-- A digit and another byte are told apart as the digit's run and the byte are. -/
theorem compare_digit (ha : isDigitByte a = true) (hb : isDigitByte b = false) (n : Nat) :
    compare (lowerByte a) (lowerByte b) = Token.compare (.number n) (.byte (lowerByte b)) ∧
      Token.compare (.number n) (.byte (lowerByte b)) ≠ .eq := by
  have hside := lowerByte_apart hb
  rw [lowerByte_of_digit ha, compare_toNat, Token.compare]
  have hdigit := isDigitByte_iff.mp ha
  simp only [UInt8.lt_iff_toNat_lt, UInt8.reduceToNat] at hside ⊢
  split
  · exact ⟨Nat.compare_eq_gt.mpr (by omega), by simp⟩
  · exact ⟨Nat.compare_eq_lt.mpr (by omega), by simp⟩

theorem then_eq_self {o : Ordering} (h : o ≠ .eq) (p : Ordering) : o.then p = o := by
  cases o with
  | eq => exact absurd rfl h
  | lt | gt => rfl

theorem allDigits_run (hb : isDigitByte b = true) (bs : List UInt8) :
    AllDigits (b :: bs.takeWhile isDigitByte) := fun d hd => by
  rcases List.mem_cons.mp hd with rfl | hd
  · exact hb
  · exact (List.mem_takeWhile_imp hd)

/-- **The natural order is the lexicographic order of the tokens.** -/
theorem naturalCompare_eq (as bs : List UInt8) :
    naturalCompare as bs = List.compareLex Token.compare (tokens as) (tokens bs) := by
  fun_induction naturalCompare as bs with
  | case1 => simp only [tokens, List.compareLex_nil_nil]
  | case2 b bs =>
    rw [tokens, tokens]
    split <;> rfl
  | case3 a as =>
    rw [tokens, tokens]
    split <;> rfl
  | case4 a as b bs h ih =>
    simp only [Bool.and_eq_true] at h
    rw [tokens, tokens, if_pos h.1, if_pos h.2, List.compareLex_cons_cons, ih, Token.compare,
      compareNumerals_eq (List.cons_ne_nil _ _) (List.cons_ne_nil _ _) (allDigits_run h.1 as)
        (allDigits_run h.2 bs)]
  | case5 a as b bs h ih =>
    rw [tokens, tokens, ih]
    cases ha : isDigitByte a <;> cases hb : isDigitByte b
    · simp only [Bool.false_eq_true, if_false, List.compareLex_cons_cons, Token.compare]
    · -- a digit run on the right
      simp only [Bool.false_eq_true, if_false, if_true, List.compareLex_cons_cons]
      obtain ⟨heq, hne⟩ := compare_digit hb ha (numeral (b :: bs.takeWhile isDigitByte))
      rw [Std.OrientedOrd.eq_swap (a := lowerByte a), heq,
        @Std.OrientedCmp.eq_swap _ Token.compare _ (.byte _), then_eq_self (by simpa using hne),
        then_eq_self (by simpa using hne)]
    · -- a digit run on the left
      simp only [Bool.false_eq_true, if_false, if_true, List.compareLex_cons_cons]
      obtain ⟨heq, hne⟩ := compare_digit ha hb (numeral (a :: as.takeWhile isDigitByte))
      rw [heq, then_eq_self hne, then_eq_self hne]
    · simp [ha, hb] at h

/-! ## The order of a mode -/

instance : Std.TransCmp compareBytes :=
  inferInstanceAs (Std.TransCmp (List.compareLex compare))

instance : Std.LawfulEqCmp compareBytes :=
  inferInstanceAs (Std.LawfulEqCmp (List.compareLex compare))

/-- Comparing by a key keeps the laws of an order. -/
theorem transCmp_by {α β : Type} (cmp : β → β → Ordering) [Std.TransCmp cmp] (key : α → β) :
    Std.TransCmp fun x y => cmp (key x) (key y) where
  eq_swap := Std.OrientedCmp.eq_swap
  isLE_trans := Std.TransCmp.isLE_trans

/-- The names as the mode compares them first. -/
def SortMode.coarse : SortMode → String → String → Ordering
  | .alphabetical =>
    fun a b => compareBytes ((nameBytes a).map lowerByte) ((nameBytes b).map lowerByte)
  | .natural =>
    fun a b => List.compareLex Token.compare (tokens (nameBytes a)) (tokens (nameBytes b))

instance (mode : SortMode) : Std.TransCmp mode.coarse := by
  cases mode with
  | alphabetical => exact transCmp_by compareBytes _
  | natural => exact transCmp_by (List.compareLex Token.compare) _

theorem SortMode.compare_eq (mode : SortMode) : mode.compare =
    compareLex mode.coarse fun a b => compareBytes (nameBytes a) (nameBytes b) := by
  funext a b
  cases mode with
  | alphabetical => rfl
  | natural => simp only [SortMode.compare, naturalCompare_eq]; rfl

instance (mode : SortMode) : Std.TransCmp mode.compare := by
  rw [SortMode.compare_eq]
  have := transCmp_by compareBytes nameBytes
  infer_instance

theorem nameBytes_injective : Function.Injective nameBytes := by
  intro a b h
  have hdata : a.toUTF8.data = b.toUTF8.data := Array.toList_inj.mp h
  exact String.toByteArray_inj.mp (ByteArray.ext hdata)

instance (mode : SortMode) : Std.LawfulEqCmp mode.compare where
  eq_of_compare h := by
    rw [SortMode.compare_eq, compareLex, Ordering.then_eq_eq] at h
    exact nameBytes_injective (Std.LawfulEqCmp.eq_of_compare h.2)

theorem SortMode.le_iff {mode : SortMode} {a b : String} :
    mode.le a b ↔ (mode.compare a b).isLE := by
  rw [SortMode.le]
  cases mode.compare a b <;> simp

/-- Of two names, one does not come behind the other. -/
theorem SortMode.le_total (mode : SortMode) (a b : String) :
    (mode.le a b || mode.le b a) = true := by
  rw [Bool.or_eq_true, SortMode.le_iff, SortMode.le_iff,
    @Std.OrientedCmp.eq_swap _ mode.compare _ a]
  cases mode.compare b a <;> simp

theorem SortMode.le_trans (mode : SortMode) {a b c : String} (hab : mode.le a b)
    (hbc : mode.le b c) :
    mode.le a c :=
  SortMode.le_iff.2 (Std.TransCmp.isLE_trans (SortMode.le_iff.1 hab) (SortMode.le_iff.1 hbc))

/-- **Each order is a total order**: only equal names are equal in it, two names stand in opposite
order when they are exchanged, and it is transitive. The natural order is the lexicographic order of
the tokens, the beginning of a name in front of the whole name, and the bytes decide between names
with the same tokens. -/
theorem compare_totalOrder (mode : SortMode) :
    (∀ a b, mode.compare a b = .eq ↔ a = b) ∧ (∀ a b, mode.compare b a = (mode.compare a b).swap) ∧
    (∀ a b c, mode.compare a b ≠ .gt → mode.compare b c ≠ .gt → mode.compare a c ≠ .gt) ∧
    (∀ a b c, mode.compare a b = .lt → mode.compare b c = .lt → mode.compare a c = .lt) ∧
    ∀ a b, naturalCompare (nameBytes a) (nameBytes b) =
      List.compareLex Token.compare (tokens (nameBytes a)) (tokens (nameBytes b)) := by
  refine ⟨fun a b => Std.LawfulEqCmp.compare_eq_iff_eq,
    fun a b => Std.OrientedCmp.eq_swap, fun a b c hab hbc => ?_, fun a b c => Std.TransCmp.lt_trans,
    fun a b => naturalCompare_eq _ _⟩
  exact Ordering.isLE_iff_ne_gt.mp
    (Std.TransCmp.isLE_trans (Ordering.isLE_iff_ne_gt.mpr hab) (Ordering.isLE_iff_ne_gt.mpr hbc))

end UseImports
