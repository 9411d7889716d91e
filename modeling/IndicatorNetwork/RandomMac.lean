import Mathlib.Data.Nat.Digits

/-!
# `randomMac` — the hardware addresses of the mock access points

The integration tests give each access point they create an address from `randomMac()`
(`tests/integration/indicator/TestIndicatorNetworkService.cpp`): six times, an octet
`qrand() % ((high + 1) - low) + low` with `high = 254` and `low = 1`, written by
`QString("%1").arg(r, 2, 16, QChar('0'))`, with a colon before every octet but the first.

`qrand()` is a stream of non-negative numbers, the `i`-th call's value at `i`.
`QString::arg` writes a non-negative number in lower-case digits of its base, right-aligned
in its field and padded with the fill character (`qStringArg`).

Whatever `qrand()` returns, the address is well formed (`randomMac_well_formed`): 17
characters, six pairs of lower-case hexadecimal digits separated by colons, which read back
(`parseMac`) as the six octets drawn, each between `01` and `fe`.
-/

namespace IndicatorNetwork

/-- `QString("%1").arg(a, fieldWidth, base, fillChar)` for `a ≥ 0`. -/
def qStringArg (a fieldWidth base : Nat) (fillChar : Char) : String :=
  let digits := Nat.toDigits base a
  ⟨List.replicate (fieldWidth - digits.length) fillChar ++ digits⟩

/-- One turn of the loop of `randomMac`, on the address so far and `first`. -/
def randomMacStep (high low : Nat) (qrand : Nat → Nat) (acc : String × Bool) (i : Nat) :
    String × Bool :=
  let hardwareAddress := if !acc.2 then acc.1 ++ ":" else acc.1
  let r := qrand i % ((high + 1) - low) + low
  (hardwareAddress ++ qStringArg r 2 16 '0', false)

/-- `randomMac()`, the `i`-th call of `qrand()` returning `qrand i`. -/
def randomMac (qrand : Nat → Nat) : String :=
  let high := 254
  let low := 1
  ((List.range 6).foldl (randomMacStep high low qrand) ("", true)).1

-- ── Reading an address back ───────────────────────────────────────────────────

/-- The value of a lower-case hexadecimal digit. -/
def hexValue (c : Char) : Option Nat :=
  if '0' ≤ c ∧ c ≤ '9' then some (c.toNat - '0'.toNat)
  else if 'a' ≤ c ∧ c ≤ 'f' then some (c.toNat - 'a'.toNat + 10) else none

/-- An octet written as two hexadecimal digits. -/
def parseOctet (hi lo : Char) : Option Nat :=
  (hexValue hi).bind fun a => (hexValue lo).map fun b => 16 * a + b

/-- The octets of `xx:xx:…:xx`. -/
def parseMac : List Char → Option (List Nat)
  | [hi, lo] => (parseOctet hi lo).map ([·])
  | hi :: lo :: ':' :: rest => (parseOctet hi lo).bind fun o => (parseMac rest).map (o :: ·)
  | _ => none

-- ── Octets ────────────────────────────────────────────────────────────────────

/-- Two hexadecimal digits, the high one first. -/
def hexPair (o : Nat) : List Char := [Nat.digitChar (o / 16), Nat.digitChar (o % 16)]

/-- An octet fills the two places of its field, padded with `0`. -/
theorem qStringArg_octet {r : Nat} (h : r < 256) : (qStringArg r 2 16 '0').data = hexPair r := by
  rcases Nat.lt_or_ge r 16 with hr | hr
  · have h0 : r / 16 = 0 := Nat.div_eq_of_lt hr
    simp [qStringArg, hexPair, Nat.toDigits, Nat.toDigitsCore, h0]
    rfl
  · obtain ⟨r', rfl⟩ : ∃ r', r = r' + 1 := ⟨r - 1, by omega⟩
    have h1 : (r' + 1) / 16 ≠ 0 := by omega
    have h2 : (r' + 1) / 16 / 16 = 0 := by omega
    have h3 : (r' + 1) / 16 % 16 = (r' + 1) / 16 := Nat.mod_eq_of_lt (by omega)
    simp [qStringArg, hexPair, Nat.toDigits, Nat.toDigitsCore, h1, h2, h3]

theorem hexValue_digitChar : ∀ d < 16, hexValue (Nat.digitChar d) = some d := by decide

theorem parseOctet_hexPair {o : Nat} (h : o < 256) : parseOctet (Nat.digitChar (o / 16))
    (Nat.digitChar (o % 16)) = some o := by
  simp [parseOctet, hexValue_digitChar _ (Nat.div_lt_of_lt_mul (show o < 16 * 16 from h)),
    hexValue_digitChar _ (Nat.mod_lt o (by decide)), Nat.div_add_mod]

/-- Octets after a first one, each behind a colon, read back. -/
theorem parseMac_octets (o : Nat) (os : List Nat) (h : ∀ x ∈ o :: os, x < 256) :
    parseMac (hexPair o ++ os.flatMap fun x => ':' :: hexPair x) = some (o :: os) := by
  induction os generalizing o with
  | nil => simp [hexPair, parseMac, parseOctet_hexPair (h o (List.mem_cons_self _ _))]
  | cons x rest ih =>
      have hx := ih x fun y hy => h y (List.mem_cons_of_mem _ hy)
      simp only [hexPair, List.flatMap_cons, List.cons_append, List.nil_append] at hx ⊢
      simp [parseMac, parseOctet_hexPair (h o (List.mem_cons_self _ _)), hx]

-- ── The loop ──────────────────────────────────────────────────────────────────

section Loop

variable (qrand : Nat → Nat)

/-- The octet of the `i`-th turn. -/
def randomMacOctet (i : Nat) : Nat := qrand i % 254 + 1

theorem randomMacOctet_lt (i : Nat) : randomMacOctet qrand i < 256 := by
  unfold randomMacOctet; omega

theorem randomMacStep_data (acc : String) (first : Bool) (i : Nat) :
    (randomMacStep 254 1 qrand (acc, first) i).1.data =
      acc.data ++ (if first then [] else [':']) ++ hexPair (randomMacOctet qrand i) := by
  have h : (qStringArg (qrand i % 254 + 1) 2 16 '0').data = hexPair (qrand i % 254 + 1) :=
    qStringArg_octet (randomMacOctet_lt qrand i)
  cases first <;> simp [randomMacStep, randomMacOctet, h]

/-- After the first turn, each turn writes a colon and its octet. -/
theorem foldl_randomMacStep (acc : String) (is : List Nat) :
    ((is.foldl (randomMacStep 254 1 qrand) (acc, false)).1).data =
      acc.data ++ (is.map (randomMacOctet qrand)).flatMap fun x => ':' :: hexPair x := by
  induction is generalizing acc with
  | nil => simp
  | cons i rest ih =>
      rw [List.foldl_cons, show randomMacStep 254 1 qrand (acc, false) i =
        ((randomMacStep 254 1 qrand (acc, false) i).1, false) from rfl, ih,
        randomMacStep_data]
      simp

theorem randomMac_data : (randomMac qrand).data =
    hexPair (randomMacOctet qrand 0) ++
      ([1, 2, 3, 4, 5].map (randomMacOctet qrand)).flatMap fun x => ':' :: hexPair x := by
  rw [randomMac, show List.range 6 = 0 :: [1, 2, 3, 4, 5] from rfl, List.foldl_cons,
    show randomMacStep 254 1 qrand ("", true) 0 =
      ((randomMacStep 254 1 qrand ("", true) 0).1, false) from rfl,
    foldl_randomMacStep, randomMacStep_data]
  simp

end Loop

/-- **WELL-FORMED ADDRESS** — whatever `qrand()` returns, `randomMac()` has 17 characters and
    reads back as six octets, `qrand() % 254 + 1` of each turn, each between `01` and `fe`:
    the field never overflows two digits and no octet is `00` or `ff`. -/
theorem randomMac_well_formed (qrand : Nat → Nat) :
    (randomMac qrand).length = 17 ∧
      ∃ os, parseMac (randomMac qrand).data = some os ∧
        os = (List.range 6).map (fun i => qrand i % 254 + 1) ∧ ∀ o ∈ os, 1 ≤ o ∧ o ≤ 254 := by
  have hdata := randomMac_data qrand
  refine ⟨?_, _, ?_, rfl, fun o ho => ?_⟩
  · simp [String.length, hdata, hexPair]
  · rw [hdata, parseMac_octets _ _ fun x hx => ?_]
    · rfl
    · simp only [List.mem_cons, List.mem_map] at hx
      rcases hx with rfl | ⟨i, -, rfl⟩ <;> exact randomMacOctet_lt qrand _
  · obtain ⟨i, -, rfl⟩ := List.mem_map.1 ho
    omega

end IndicatorNetwork
