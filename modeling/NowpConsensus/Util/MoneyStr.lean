import NowpConsensus.Primitives.Transaction
import NowpConsensus.Util.FixedPoint
import Mathlib.Data.List.DropRight
import Mathlib.Data.List.TakeWhile

/-!
# `FormatMoney` and `ParseMoney`

`util/moneystr.cpp` prints an amount as `strprintf("%d.%06d", quotient, remainder)` with the
zeros after the second fraction digit trimmed, and reads one back digit by digit: the whole
part is collected into `strWhole` and converted by `LocaleIndependentAtoi`, the fraction is
accumulated with a multiplier that starts at `COIN / 10` and shrinks tenfold, so at most six
fraction digits are read. Strings are lists of characters; the end of the list is the
terminating NUL of `c_str()`, which `ValidAsCString` makes the only one.

The results: an amount in `[0, MAX_MONEY]` is printed as a `MoneyText`, the canonical form
with two to six fraction digits (`FormatMoney_of_nonneg`), which `ParseMoney` reads back to the
same amount (`ParseMoney_render`); every amount `ParseMoney` accepts is in that range
(`ParseMoney_moneyRange`).
-/

namespace NowpConsensus

/-- `IsSpace`: the characters `" \f\n\r\t\v"`. -/
def IsSpace (c : Char) : Bool :=
  c == ' ' || c == '\x0c' || c == '\n' || c == '\r' || c == '\t' || c == '\x0b'

/-- `ValidAsCString`: `strlen` finds no NUL before the end. -/
def ValidAsCString (str : List Char) : Bool :=
  str.length == (str.takeWhile (· != '\x00')).length

/-- `TrimString` with its default pattern, which is the set `IsSpace` tests: from the first
character not in it (`find_first_not_of`) to the last (`find_last_not_of`). -/
def TrimString (str : List Char) : List Char :=
  (str.dropWhile IsSpace).rdropWhile IsSpace

/-- `INT64_MIN` and `INT64_MAX`, where `LocaleIndependentAtoi<int64_t>` saturates. -/
def INT64_MIN : Int := -2 ^ 63

/-- `INT64_MAX`. -/
def INT64_MAX : Int := 2 ^ 63 - 1

/-- `std::from_chars` for a signed integer: an optional `-` and the longest run of digits after
it; `none` when there is no digit (`errc::invalid_argument`). The value is returned unbounded;
the caller compares it with the type's range. -/
def fromChars (s : List Char) : Option Int :=
  let neg := s.head? == some '-'
  let ds := (if neg then s.tail else s).takeWhile IsDigit
  if ds.isEmpty then none
  else
    let v : Int := Nat.ofDigitChars 10 ds 0
    some (if neg then -v else v)

/-- `LocaleIndependentAtoi<int64_t>`: trim, drop one leading `+` (`"+-"` is `0`), parse, `0` on
a parse error and the bound of the sign on overflow. -/
def LocaleIndependentAtoi (str : List Char) : Int :=
  let s := TrimString str
  if s.head? == some '+' && s[1]? == some '-' then 0
  else
    let s := if s.head? == some '+' then s.tail else s
    match fromChars s with
    | none => 0
    | some v =>
      if v < INT64_MIN ∨ INT64_MAX < v then
        if s.head? == some '-' then INT64_MIN else INT64_MAX
      else v

/-! ## `ParseMoney` -/

/-- The loop `while (IsDigit(*p) && (nMult > 0))` after the point: it returns `nUnits` and the
characters from `p` on. -/
def fracLoop : List Char → Int → Int → Int × List Char
  | [], _, nUnits => (nUnits, [])
  | c :: cs, nMult, nUnits =>
    if IsDigit c = true ∧ 0 < nMult then fracLoop cs (nMult / 10) (nUnits + nMult * digitValue c)
    else (nUnits, c :: cs)

/-- The loop `for (; *p; p++)`: digits are appended to `strWhole` until a point, which hands
over to `fracLoop` and breaks the loop. `none` is a `return std::nullopt` inside it; the result
is `strWhole`, `nUnits` and the characters from `p` on. -/
def wholeLoop : List Char → List Char → Option (List Char × Int × List Char)
  | [], strWhole => some (strWhole, 0, [])
  | c :: cs, strWhole =>
    if c = '.' then
      let r := fracLoop cs (COIN / 10) 0
      some (strWhole, r.1, r.2)
    else if IsSpace c then none
    else if !IsDigit c then none
    else wholeLoop cs (strWhole ++ [c])

/-- `ParseMoney`. -/
def ParseMoney (money_string : List Char) : Option CAmount :=
  if !ValidAsCString money_string then none
  else
    let str := TrimString money_string
    if str.isEmpty then none
    else
      match wholeLoop str [] with
      | none => none
      | some (strWhole, nUnits, p) =>
        if !p.isEmpty then none
        else if strWhole.length > 10 then none
        else if nUnits < 0 ∨ nUnits > COIN then none
        else
          let nWhole := LocaleIndependentAtoi strWhole
          let value := nWhole * COIN + nUnits
          if !MoneyRange value then none else some value

example : ParseMoney " 12.5 ".toList = some 12500000 := by decide
example : ParseMoney "1.0000001".toList = none := by decide

/-! ## `FormatMoney` -/

/-- `strprintf("%d", x)`. -/
def printfD (x : Int) : List Char :=
  if x < 0 then '-' :: Nat.toDigits 10 x.natAbs else Nat.toDigits 10 x.natAbs

/-- `strprintf("%06d", x)`: the digits padded with zeros on the left, after the sign, to six
characters. -/
def printfD06 (x : Int) : List Char :=
  let ds := Nat.toDigits 10 x.natAbs
  if x < 0 then '-' :: (List.replicate (5 - ds.length) '0' ++ ds)
  else List.replicate (6 - ds.length) '0' ++ ds

/-- The loop `for (int i = str.size()-1; (str[i] == '0' && IsDigit(str[i-2])); --i) ++nTrim`,
from index `i` with count `nTrim`. At `i < 2` it stops, where the source would read before the
string: `FormatMoney` never gets there, as its string has a point before the fraction. -/
def trimLoop (str : List Char) : Nat → Nat → Nat
  | i + 2, nTrim =>
    if str.getD (i + 2) '\x00' = '0' ∧ IsDigit (str.getD i '\x00') = true then
      trimLoop str (i + 1) (nTrim + 1)
    else nTrim
  | _, nTrim => nTrim

/-- `FormatMoney`. -/
def FormatMoney (n : CAmount) : List Char :=
  let quotient := if n < 0 then -n.tdiv COIN else n.tdiv COIN
  let remainder := if n < 0 then -n.tmod COIN else n.tmod COIN
  let str := printfD quotient ++ '.' :: printfD06 remainder
  let nTrim := trimLoop str (str.length - 1) 0
  let str := if nTrim ≠ 0 then str.take (str.length - nTrim) else str
  if n < 0 then '-' :: str else str

example : FormatMoney 1000000 = "1.00".toList := by decide
example : FormatMoney 1234500 = "1.2345".toList := by decide
example : FormatMoney (-1000) = "-0.001".toList := by decide

/-! ## Characters and the helpers -/

theorem IsSpace_of_isDigit {c : Char} (h : IsDigit c = true) : IsSpace c = false := by
  have hc := toNat_of_isDigit h
  cases hs : IsSpace c with
  | false => rfl
  | true =>
    simp only [IsSpace, Bool.or_eq_true, beq_iff_eq] at hs
    rcases hs with ((((rfl | rfl) | rfl) | rfl) | rfl) | rfl <;> simp at hc

theorem IsDigit_eq_isDigit (c : Char) : IsDigit c = c.isDigit := by
  simp only [IsDigit, Char.isDigit, Char.le_def]

theorem isDigit_of_mem_toDigits {n : Nat} {c : Char} (h : c ∈ Nat.toDigits 10 n) :
    IsDigit c = true := by
  rw [IsDigit_eq_isDigit]
  exact Nat.isDigit_of_mem_toDigits (by decide) (by decide) h

theorem TrimString_eq_self {str : List Char} (hh : ∀ c ∈ str.head?, IsSpace c = false)
    (hl : ∀ c ∈ str.getLast?, IsSpace c = false) : TrimString str = str := by
  have hdrop : str.dropWhile IsSpace = str := by
    cases str with
    | nil => rfl
    | cons c cs => exact List.dropWhile_cons_of_neg (by simp [hh c rfl])
  rw [TrimString, hdrop, List.rdropWhile_eq_self_iff]
  intro hne
  simp [hl _ (List.getLast?_eq_some_getLast hne)]

/-- Digit `c` in front of `cs` counts `10 ^ cs.length` times its value. -/
theorem ofDigitChars_cons_zero (c : Char) (cs : List Char) :
    Nat.ofDigitChars 10 (c :: cs) 0 = 10 ^ cs.length * (c.toNat - 48) + Nat.ofDigitChars 10 cs 0 := by
  rw [Nat.ofDigitChars_cons, Nat.ofDigitChars_eq_ofDigitChars_zero]
  simp

theorem ofDigitChars_lt {ds : List Char} (hds : ∀ c ∈ ds, IsDigit c = true) :
    Nat.ofDigitChars 10 ds 0 < 10 ^ ds.length := by
  induction ds with
  | nil => simp
  | cons c cs ih =>
    have hc := toNat_of_isDigit (hds c List.mem_cons_self)
    have hcs := ih fun d hd => hds d (List.mem_cons_of_mem _ hd)
    rw [ofDigitChars_cons_zero, List.length_cons, pow_succ]
    calc 10 ^ cs.length * (c.toNat - 48) + Nat.ofDigitChars 10 cs 0
        < 10 ^ cs.length * (c.toNat - 48) + 10 ^ cs.length := by omega
      _ = 10 ^ cs.length * (c.toNat - 48 + 1) := by ring
      _ ≤ 10 ^ cs.length * 10 := Nat.mul_le_mul_left _ (by omega)

theorem ofDigitChars_replicate_append (k : Nat) (ds : List Char) :
    Nat.ofDigitChars 10 (List.replicate k '0' ++ ds) 0 = Nat.ofDigitChars 10 ds 0 := by
  rw [Nat.ofDigitChars_append, Nat.ofDigitChars_replicate_zero, Nat.mul_zero]

theorem ofDigitChars_append_replicate (ds : List Char) (k : Nat) :
    Nat.ofDigitChars 10 (ds ++ List.replicate k '0') 0 = 10 ^ k * Nat.ofDigitChars 10 ds 0 := by
  rw [Nat.ofDigitChars_append, Nat.ofDigitChars_replicate_zero]

theorem fromChars_digits {ds : List Char} (hds : ∀ c ∈ ds, IsDigit c = true) (hne : ds ≠ []) :
    fromChars ds = some (Nat.ofDigitChars 10 ds 0) := by
  obtain ⟨c, cs, rfl⟩ := List.exists_cons_of_ne_nil hne
  have hc : c ≠ '-' := by
    rintro rfl
    exact absurd (hds _ List.mem_cons_self) (by decide)
  have htake : (c :: cs).takeWhile IsDigit = c :: cs := List.takeWhile_eq_self_iff.mpr hds
  simp [fromChars, hc, htake]

/-- On a run of at most 18 digits `LocaleIndependentAtoi` is the value of the digits, `0` for
none. -/
theorem LocaleIndependentAtoi_digits {ds : List Char} (hds : ∀ c ∈ ds, IsDigit c = true)
    (hlen : ds.length ≤ 18) : LocaleIndependentAtoi ds = Nat.ofDigitChars 10 ds 0 := by
  cases ds with
  | nil => decide
  | cons c cs =>
    have hc := hds c List.mem_cons_self
    have hcs : ∀ d ∈ (c :: cs).getLast?, IsSpace d = false := fun d hd =>
      IsSpace_of_isDigit (hds d (List.mem_of_getLast? hd))
    have htrim := TrimString_eq_self (by simpa using IsSpace_of_isDigit hc) hcs
    have hplus : c ≠ '+' := by
      rintro rfl
      exact absurd hc (by decide)
    have hlt := ofDigitChars_lt hds
    have hpow : 10 ^ (c :: cs).length ≤ 10 ^ 18 := Nat.pow_le_pow_right (by norm_num) hlen
    have hrange : ¬((Nat.ofDigitChars 10 (c :: cs) 0 : Int) < INT64_MIN ∨
        INT64_MAX < (Nat.ofDigitChars 10 (c :: cs) 0 : Int)) := by
      simp only [INT64_MIN, INT64_MAX]
      omega
    simp [LocaleIndependentAtoi, htrim, hplus, fromChars_digits hds (List.cons_ne_nil c cs), hrange]

/-! ## The loops of `ParseMoney` on a money text -/

theorem digitValue_eq_ofDigitChars {c : Char} (h : IsDigit c = true) :
    digitValue c = ((c.toNat - 48 : Nat) : Int) := by
  have := toNat_of_isDigit h
  unfold digitValue
  change (c.toNat : Int) - 48 = _
  omega

/-- With the multiplier at `10 ^ m`, at most `m + 1` digits are all read, each scaled to its
place among six. -/
theorem fracLoop_digits {K : List Char} (hK : ∀ c ∈ K, IsDigit c = true) :
    ∀ {m : Nat} {u : Int}, K.length ≤ m + 1 →
      fracLoop K (10 ^ m) u = (u + (Nat.ofDigitChars 10 K 0 * 10 ^ (m + 1 - K.length) : Nat), []) := by
  induction K with
  | nil => intro m u _; simp [fracLoop]
  | cons c cs ih =>
    intro m u hlen
    have hc := hK c List.mem_cons_self
    have hcs : ∀ d ∈ cs, IsDigit d = true := fun d hd => hK d (List.mem_cons_of_mem _ hd)
    have hstep : fracLoop (c :: cs) (10 ^ m) u =
        fracLoop cs (10 ^ m / 10) (u + 10 ^ m * digitValue c) :=
      if_pos ⟨hc, by positivity⟩
    rw [hstep, digitValue_eq_ofDigitChars hc, ofDigitChars_cons_zero]
    cases m with
    | zero =>
      obtain rfl : cs = [] := List.eq_nil_of_length_eq_zero (by simpa using hlen)
      simp [fracLoop]
    | succ m =>
      have hcs_len : cs.length ≤ m + 1 := by simpa using hlen
      rw [pow_succ, Int.mul_ediv_cancel _ (by norm_num), ih hcs hcs_len, List.length_cons]
      have hsplit : 10 ^ (m + 1) = 10 ^ cs.length * 10 ^ (m + 1 - cs.length) := by
        rw [← pow_add, Nat.add_sub_cancel' hcs_len]
      congr 1
      rw [show m + 1 + 1 - (cs.length + 1) = m + 1 - cs.length by omega]
      push_cast
      rw [show (10 : Int) ^ m * 10 = ((10 ^ (m + 1) : Nat) : Int) by push_cast; ring, hsplit]
      push_cast
      ring

theorem wholeLoop_digits {W : List Char} (hW : ∀ c ∈ W, IsDigit c = true) (rest : List Char) :
    ∀ acc : List Char, wholeLoop (W ++ '.' :: rest) acc =
      some (acc ++ W, (fracLoop rest (COIN / 10) 0).1, (fracLoop rest (COIN / 10) 0).2) := by
  induction W with
  | nil => intro acc; simp [wholeLoop]
  | cons c cs ih =>
    intro acc
    have hc := hW c List.mem_cons_self
    have hpt : c ≠ '.' := by
      rintro rfl
      exact absurd hc (by decide)
    rw [List.cons_append, wholeLoop, if_neg hpt, if_neg (by simp [IsSpace_of_isDigit hc]),
      if_neg (by simp [hc]), ih (fun d hd => hW d (List.mem_cons_of_mem _ hd)), List.append_assoc,
      List.singleton_append]

/-! ## The trim loop of `FormatMoney` -/

theorem trimLoop_append (str extra : List Char) :
    ∀ {i : Nat} (t : Nat), i < str.length → trimLoop (str ++ extra) i t = trimLoop str i t
  | 0, _, _ => rfl
  | 1, _, _ => rfl
  | i + 2, t, hi => by
    have hget : ∀ j < str.length, (str ++ extra).getD j '\x00' = str.getD j '\x00' := by
      intro j hj
      simp [List.getD_eq_getElem?_getD, List.getElem?_append_left hj]
    rw [trimLoop, trimLoop, hget _ hi, hget _ (by omega),
      trimLoop_append str extra (t + 1) (by omega)]

theorem getD_append_cons (Q D : List Char) (pt : Char) (k : Nat) :
    (Q ++ pt :: D).getD (Q.length + 1 + k) '\x00' = D.getD k '\x00' := by
  rw [List.getD_eq_getElem?_getD, List.getD_eq_getElem?_getD, List.getElem?_append_right (by omega),
    show Q.length + 1 + k - Q.length = k + 1 by omega, List.getElem?_cons_succ]

/-- On `Q ++ pt :: d0 :: d1 :: G` with a point `pt` and digits after it, the loop counts the
trailing zeros of `G`: the check two characters back meets the point at `d1`. -/
theorem trimLoop_fraction (Q : List Char) {pt d0 d1 : Char} (hpt : IsDigit pt = false)
    {G : List Char} (hD : ∀ c ∈ d0 :: d1 :: G, IsDigit c = true) (t : Nat) :
    trimLoop (Q ++ pt :: d0 :: d1 :: G) (Q.length + 2 + G.length) t = t + trailingZeros G := by
  induction G using List.reverseRecOn generalizing t with
  | nil => simp [trimLoop, hpt, trailingZeros]
  | append_singleton G c ih =>
    have hG : ∀ d ∈ d0 :: d1 :: G, IsDigit d = true := fun d hd =>
      hD d (by simp only [List.mem_cons, List.mem_append] at hd ⊢; tauto)
    have hback : IsDigit ((Q ++ pt :: d0 :: d1 :: (G ++ [c])).getD (Q.length + 1 + G.length)
        '\x00') = true := by
      rw [getD_append_cons, List.getD_eq_getElem?_getD, List.getElem?_eq_getElem (by simp; omega),
        Option.getD_some]
      exact hD _ (List.getElem_mem _)
    have hlast : (Q ++ pt :: d0 :: d1 :: (G ++ [c])).getD (Q.length + 1 + G.length + 2)
        '\x00' = c := by
      rw [Nat.add_assoc, getD_append_cons]
      simp
    have hS : Q ++ pt :: d0 :: d1 :: (G ++ [c]) = (Q ++ pt :: d0 :: d1 :: G) ++ [c] := by simp
    rw [List.length_append, List.length_singleton,
      show Q.length + 2 + (G.length + 1) = Q.length + 1 + G.length + 2 by omega, trimLoop, hlast]
    rcases eq_or_ne c '0' with rfl | hc
    · rw [if_pos ⟨rfl, hback⟩, hS, trimLoop_append _ _ _ (by simp; omega),
        show Q.length + 1 + G.length + 1 = Q.length + 2 + G.length by omega, ih hG,
        trailingZeros_append_zero]
      omega
    · rw [if_neg (fun h => hc h.1), trailingZeros_append_of_ne _ hc]
      omega

/-! ## The canonical money text -/

/-- `FormatMoney`'s fraction: the six digits of `%06d` with the zeros after the second
removed. -/
def trimFraction (F : List Char) : List Char := F.take 2 ++ (F.drop 2).rdropWhile (· = '0')

/-- A money text in the form `FormatMoney` prints: the whole part as `%d` prints it, a point,
and two to six fraction digits, the last not a zero unless there are only two. -/
structure MoneyText where
  whole : Nat
  frac : List Char
  frac_digits : ∀ c ∈ frac, IsDigit c = true
  two_le_length : 2 ≤ frac.length
  length_le_six : frac.length ≤ 6
  trimmed : frac.length = 2 ∨ frac.getLast? ≠ some '0'

namespace MoneyText

/-- The characters of the text. -/
def render (t : MoneyText) : List Char := Nat.toDigits 10 t.whole ++ '.' :: t.frac

/-- The fraction in satoshis: its digits in the first places of six. -/
def fracUnits (t : MoneyText) : Nat := Nat.ofDigitChars 10 t.frac 0 * 10 ^ (6 - t.frac.length)

/-- The amount the text denotes, `COIN` satoshis a unit. -/
def amount (t : MoneyText) : CAmount := (t.whole : Int) * COIN + (t.fracUnits : Int)

theorem fracUnits_lt (t : MoneyText) : t.fracUnits < 10 ^ 6 := by
  have hlt := ofDigitChars_lt t.frac_digits
  have hsplit : 10 ^ 6 = 10 ^ t.frac.length * 10 ^ (6 - t.frac.length) := by
    rw [← pow_add, Nat.add_sub_cancel' t.length_le_six]
  rw [fracUnits, hsplit]
  exact Nat.mul_lt_mul_of_pos_right hlt (by positivity)

end MoneyText

/-! ### `%06d` and the trimmed fraction -/

theorem printfD_natCast (q : Nat) : printfD q = Nat.toDigits 10 q := by
  simp [printfD]

theorem printfD06_natCast (r : Nat) :
    printfD06 r = List.replicate (6 - (Nat.toDigits 10 r).length) '0' ++ Nat.toDigits 10 r := by
  simp [printfD06]

theorem length_printfD06 {r : Nat} (hr : r < 10 ^ 6) : (printfD06 r).length = 6 := by
  have hlen := (Nat.length_toDigits_le_iff (by norm_num) (by norm_num)).mpr hr
  rw [printfD06_natCast, List.length_append, List.length_replicate]
  omega

theorem printfD06_digits (r : Nat) : ∀ c ∈ printfD06 r, IsDigit c = true := by
  intro c hc
  rw [printfD06_natCast, List.mem_append] at hc
  rcases hc with hc | hc
  · rw [List.eq_of_mem_replicate hc]
    rfl
  · exact isDigit_of_mem_toDigits hc

theorem ofDigitChars_printfD06 (r : Nat) : Nat.ofDigitChars 10 (printfD06 r) 0 = r := by
  rw [printfD06_natCast, ofDigitChars_replicate_append, Nat.ofDigitChars_ten_toDigits]

/-- The zeros that end a string are its `rtakeWhile`. -/
theorem rtakeWhile_eq_replicate (G : List Char) :
    G.rtakeWhile (· = '0') = List.replicate (trailingZeros G) '0' := by
  rw [List.eq_replicate_iff]
  refine ⟨by simp [List.rtakeWhile, trailingZeros], fun c hc => ?_⟩
  simpa using List.mem_rtakeWhile_imp hc

theorem rdropWhile_append_zeros (G : List Char) :
    G.rdropWhile (· = '0') ++ List.replicate (trailingZeros G) '0' = G := by
  rw [← rtakeWhile_eq_replicate, List.rdropWhile_append_rtakeWhile]

theorem trimFraction_cons_cons (d0 d1 : Char) (G : List Char) :
    trimFraction (d0 :: d1 :: G) = d0 :: d1 :: G.rdropWhile (· = '0') := rfl

theorem trimFraction_sublist (F : List Char) : ∀ c ∈ trimFraction F, c ∈ F := by
  intro c hc
  rw [trimFraction, List.mem_append] at hc
  rcases hc with hc | hc
  · exact List.mem_of_mem_take hc
  · exact List.mem_of_mem_drop ((List.rdropWhile_prefix _ _).subset hc)

theorem length_trimFraction {F : List Char} (hF : F.length = 6) :
    2 ≤ (trimFraction F).length ∧ (trimFraction F).length ≤ 6 := by
  have hle := (List.rdropWhile_prefix (· = '0') (F.drop 2)).length_le
  simp only [trimFraction, List.length_append, List.length_take, List.length_drop] at hle ⊢
  omega

theorem trimFraction_trimmed {F : List Char} (hF : F.length = 6) :
    (trimFraction F).length = 2 ∨ (trimFraction F).getLast? ≠ some '0' := by
  rcases hR : (F.drop 2).rdropWhile (· = '0') with _ | ⟨c, cs⟩
  · left
    simp [trimFraction, hR, hF]
  · right
    have hne : (F.drop 2).rdropWhile (· = '0') ≠ [] := by simp [hR]
    have hlast := List.rdropWhile_last_not (· = '0') (F.drop 2) hne
    rw [trimFraction, List.getLast?_append, List.getLast?_eq_some_getLast hne]
    simpa using hlast

/-- The trimmed zeros only shift the fraction's digits into their places. -/
theorem ofDigitChars_trimFraction {F : List Char} (hF : F.length = 6) :
    Nat.ofDigitChars 10 (trimFraction F) 0 * 10 ^ (6 - (trimFraction F).length) =
      Nat.ofDigitChars 10 F 0 := by
  obtain ⟨d0, d1, G, rfl⟩ : ∃ d0 d1 G, F = d0 :: d1 :: G := by
    match F, hF with
    | d0 :: d1 :: G, _ => exact ⟨d0, d1, G, rfl⟩
  have hG := rdropWhile_append_zeros G
  have hlen := congrArg List.length hG
  simp only [List.length_append, List.length_replicate] at hlen
  simp only [List.length_cons] at hF
  conv_rhs => rw [← hG, ← List.cons_append, ← List.cons_append]
  rw [ofDigitChars_append_replicate, trimFraction_cons_cons, List.length_cons, List.length_cons,
    show 6 - (G.rdropWhile (· = '0')).length.succ.succ = trailingZeros G by omega, Nat.mul_comm]

namespace MoneyText

/-- The text `FormatMoney` prints for a non-negative amount. -/
def ofAmount (n : Nat) : MoneyText where
  whole := n / 1000000
  frac := trimFraction (printfD06 (n % 1000000 : Nat))
  frac_digits := fun c hc => printfD06_digits _ c (trimFraction_sublist _ c hc)
  two_le_length := (length_trimFraction (length_printfD06 (Nat.mod_lt _ (by norm_num)))).1
  length_le_six := (length_trimFraction (length_printfD06 (Nat.mod_lt _ (by norm_num)))).2
  trimmed := trimFraction_trimmed (length_printfD06 (Nat.mod_lt _ (by norm_num)))

theorem amount_ofAmount (n : Nat) : (ofAmount n).amount = n := by
  have hr : n % 1000000 < 10 ^ 6 := Nat.mod_lt _ (by norm_num)
  have hunits : (ofAmount n).fracUnits = n % 1000000 := by
    rw [fracUnits]
    change Nat.ofDigitChars 10 (trimFraction (printfD06 (n % 1000000 : Nat))) 0 *
      10 ^ (6 - (trimFraction (printfD06 (n % 1000000 : Nat))).length) = _
    rw [ofDigitChars_trimFraction (length_printfD06 hr), ofDigitChars_printfD06]
  rw [amount, hunits]
  change ((n / 1000000 : Nat) : Int) * COIN + ((n % 1000000 : Nat) : Int) = n
  rw [COIN]
  omega

end MoneyText

/-! ## `FormatMoney` prints the canonical text -/

/-- The trim loop's count, erased from the end, leaves the trimmed fraction. -/
theorem take_trimLoop (Q : List Char) {d0 d1 : Char} {G : List Char}
    (hD : ∀ c ∈ d0 :: d1 :: G, IsDigit c = true) :
    let str := Q ++ '.' :: d0 :: d1 :: G
    (if trimLoop str (str.length - 1) 0 ≠ 0 then str.take (str.length - trimLoop str (str.length - 1) 0)
      else str) = Q ++ '.' :: trimFraction (d0 :: d1 :: G) := by
  intro str
  have hcount : trimLoop str (str.length - 1) 0 = trailingZeros G := by
    have hlen : str.length - 1 = Q.length + 2 + G.length := by simp [str]; omega
    rw [hlen, trimLoop_fraction Q (by decide) hD, Nat.zero_add]
  have htake : str.take (str.length - trailingZeros G) = Q ++ '.' :: trimFraction (d0 :: d1 :: G) := by
    have hsplit : str = (Q ++ ['.', d0, d1]) ++ (G.rdropWhile (· = '0') ++
        List.replicate (trailingZeros G) '0') := by
      simp [str, rdropWhile_append_zeros]
    have hlen := congrArg List.length (rdropWhile_append_zeros G)
    simp only [List.length_append, List.length_replicate] at hlen
    rw [hsplit, ← List.append_assoc, List.take_left' (by simp; omega), trimFraction_cons_cons]
    simp
  rw [hcount, htake]
  split_ifs with h
  · rfl
  · simp only [ne_eq, not_not] at h
    rw [← htake, h, Nat.sub_zero, List.take_length]

/-- `FormatMoney` of a non-negative amount is its canonical text. -/
theorem FormatMoney_of_nonneg {n : CAmount} (h : 0 ≤ n) :
    FormatMoney n = (MoneyText.ofAmount n.toNat).render := by
  obtain ⟨m, rfl⟩ := Int.eq_ofNat_of_zero_le h
  have hq : (m : Int).tdiv COIN = ((m / 1000000 : Nat) : Int) := by
    rw [Int.tdiv_eq_ediv_of_nonneg h, COIN]
    omega
  have hr : (m : Int).tmod COIN = ((m % 1000000 : Nat) : Int) := by
    rw [Int.tmod_eq_emod_of_nonneg h, COIN]
    omega
  have hF := length_printfD06 (Nat.mod_lt m (show 0 < 10 ^ 6 by norm_num))
  obtain ⟨d0, d1, G, hdG⟩ : ∃ d0 d1 G, printfD06 (m % 1000000 : Nat) = d0 :: d1 :: G := by
    match printfD06 (m % 1000000 : Nat), hF with
    | d0 :: d1 :: G, _ => exact ⟨d0, d1, G, rfl⟩
  have hD : ∀ c ∈ d0 :: d1 :: G, IsDigit c = true := hdG ▸ printfD06_digits _
  simp only [FormatMoney, if_neg (not_lt.mpr h), hq, hr, printfD_natCast, hdG]
  rw [take_trimLoop _ hD, MoneyText.render, Int.toNat_natCast]
  simp only [MoneyText.ofAmount, hdG]

/-! ## `ParseMoney` reads the canonical text back -/

theorem render_chars (t : MoneyText) : ∀ c ∈ t.render, IsSpace c = false ∧ c ≠ '\x00' := by
  intro c hc
  rw [MoneyText.render, List.mem_append, List.mem_cons] at hc
  have hdigit : IsDigit c = true → IsSpace c = false ∧ c ≠ '\x00' := fun hd =>
    ⟨IsSpace_of_isDigit hd, by rintro rfl; exact absurd hd (by decide)⟩
  rcases hc with hc | rfl | hc
  · exact hdigit (isDigit_of_mem_toDigits hc)
  · decide
  · exact hdigit (t.frac_digits c hc)

/-- `ParseMoney` reads a canonical text whose amount is in range back to that amount. -/
theorem ParseMoney_render (t : MoneyText) (hmax : t.amount ≤ MAX_MONEY) :
    ParseMoney t.render = some t.amount := by
  have hchars := render_chars t
  have hvalid : ValidAsCString t.render = true := by
    rw [ValidAsCString, List.takeWhile_eq_self_iff.mpr (fun c hc => by simp [(hchars c hc).2])]
    exact beq_self_eq_true _
  have htrim : TrimString t.render = t.render :=
    TrimString_eq_self (fun c hc => (hchars c (List.mem_of_mem_head? hc)).1)
      (fun c hc => (hchars c (List.mem_of_mem_getLast? hc)).1)
  have hfrac : fracLoop t.frac (COIN / 10) 0 = ((t.fracUnits : Int), []) := by
    rw [show COIN / 10 = 10 ^ 5 from rfl, fracLoop_digits t.frac_digits (by have := t.length_le_six; omega),
      Int.zero_add]
    rfl
  have hloop : wholeLoop t.render [] = some (Nat.toDigits 10 t.whole, (t.fracUnits : Int), []) := by
    rw [MoneyText.render, wholeLoop_digits (fun c hc => isDigit_of_mem_toDigits hc), hfrac,
      List.nil_append]
  have hunits := t.fracUnits_lt
  have hamount : t.amount = (t.whole : Int) * 1000000 + (t.fracUnits : Int) := rfl
  have hwhole : t.whole < 10 ^ 10 := by
    have hle : (t.whole : Int) * 1000000 + (t.fracUnits : Int) ≤ 210000000 * 1000000 := hmax
    norm_num
    omega
  have hlen := (Nat.length_toDigits_le_iff (by norm_num) (by norm_num)).mpr hwhole
  have hatoi : LocaleIndependentAtoi (Nat.toDigits 10 t.whole) = t.whole := by
    rw [LocaleIndependentAtoi_digits (fun c hc => isDigit_of_mem_toDigits hc) (by omega),
      Nat.ofDigitChars_ten_toDigits]
  have hrange : MoneyRange t.amount = true := by
    have hpos : (0 : Int) ≤ t.amount := by
      rw [hamount]
      omega
    simpa [MoneyRange] using ⟨hpos, hmax⟩
  have hne : t.render.isEmpty = false := by simp [MoneyText.render]
  have hlong : ¬(Nat.toDigits 10 t.whole).length > 10 := by omega
  have hbounds : ¬((t.fracUnits : Int) < 0 ∨ (t.fracUnits : Int) > COIN) := by
    change ¬((t.fracUnits : Int) < 0 ∨ (t.fracUnits : Int) > 1000000)
    omega
  have hval : (t.whole : Int) * COIN + (t.fracUnits : Int) = t.amount := rfl
  simp [ParseMoney, hvalid, htrim, hne, hloop, hatoi, hlong, hbounds, hval, hrange]

/-- Every amount `ParseMoney` returns passes `MoneyRange`: its last check. -/
theorem ParseMoney_moneyRange {s : List Char} {v : CAmount} (h : ParseMoney s = some v) :
    MoneyRange v = true := by
  unfold ParseMoney at h
  dsimp only at h
  split at h
  · cases h
  · split at h
    · cases h
    · split at h
      · cases h
      · split_ifs at h with _ _ _ hrange
        cases h
        simpa using hrange

theorem ParseMoney_FormatMoney_of_mem {n : CAmount} (h0 : 0 ≤ n) (h1 : n ≤ MAX_MONEY) :
    ParseMoney (FormatMoney n) = some n := by
  have hamt : (MoneyText.ofAmount n.toNat).amount = n := by
    rw [MoneyText.amount_ofAmount, Int.toNat_of_nonneg h0]
  have hmax : (MoneyText.ofAmount n.toNat).amount ≤ MAX_MONEY := by rw [hamt]; exact h1
  rw [FormatMoney_of_nonneg h0, ParseMoney_render _ hmax, hamt]

theorem FormatMoney_canonical {n : CAmount} (h0 : 0 ≤ n) :
    ∃ t : MoneyText, FormatMoney n = t.render ∧ t.amount = n :=
  ⟨_, FormatMoney_of_nonneg h0, by rw [MoneyText.amount_ofAmount, Int.toNat_of_nonneg h0]⟩

theorem ParseMoney_FormatMoney :
    (∀ n : CAmount, 0 ≤ n → n ≤ MAX_MONEY → ParseMoney (FormatMoney n) = some n) ∧
    ∀ (s : List Char) (v : CAmount), ParseMoney s = some v →
      ParseMoney (FormatMoney v) = some v ∧
        ∃ t : MoneyText, FormatMoney v = t.render ∧ t.amount = v := by
  refine ⟨fun n h0 h1 => ParseMoney_FormatMoney_of_mem h0 h1, fun s v hv => ?_⟩
  have hrange := ParseMoney_moneyRange hv
  simp only [MoneyRange, Bool.and_eq_true, decide_eq_true_eq] at hrange
  exact ⟨ParseMoney_FormatMoney_of_mem hrange.1 hrange.2, FormatMoney_canonical hrange.1⟩

theorem ParseMoney_FormatMoney_coin : ParseMoney (FormatMoney COIN) = some COIN :=
  ParseMoney_FormatMoney.1 COIN (by decide) (by decide)

/-- `"1"` parses to `COIN`, which prints as `"1.00"`: a second fraction zero is kept. -/
theorem FormatMoney_keeps_second_zero :
    ParseMoney "1".toList = some COIN ∧ FormatMoney COIN = "1.00".toList := by
  decide

end NowpConsensus
