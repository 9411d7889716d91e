import IndicatorNetwork.StdMap

/-!
# `Variant` and the `Codec` specialisations

`network/gio-helpers/variant.h` wraps a `GVariant *` in `Variant` and converts C++ values
to and from it through `Codec<T>::encode_argument` / `decode_argument`:
`TypedVariant<T>(value)` encodes, `Variant::as<T>()` decodes. The specialisations cover
`bool`, `std::uint8_t`, `std::int32_t`, `std::string`, `std::map<std::string, Variant>`
(a `a{sv}` dictionary) and `std::vector<Variant>` (an `av` array).

The model keeps what the codecs touch:

* a `std::string` is its bytes, NUL included; GLib reads a `const char *` up to the first
  NUL (`cString`), which is how `c_str()` reaches `g_variant_new_string` and how the decoded
  `const gchar *` reaches `std::string`;
* a GVariant string is valid UTF-8 without NUL (`GString`); `g_variant_new_string` refuses
  anything else (`utf8Validate` is `g_utf8_validate`);
* `g_variant_builder_add(&builder, "{sv}", key, …)` reads `key` as the `s` of a
  `g_variant_new` format string, which puts `[Invalid UTF-8]` in place of text that is not
  valid UTF-8 (`gVariantNewVaString`): the map encoder never fails;
* `GVariant` has the constructors the codecs build and read, with `GVariant.type` for
  `g_variant_is_of_type`; the values GLib can build are the well-typed ones
  (`GVariant.wellTyped`, the subtype `GValue`);
* the values of a map and the elements of a vector are non-null: GLib drops the entry of a
  null `Variant` (`g_variant_new_variant(NULL)` fails), a case the model leaves out;
* `std::map<std::string, V>` is a `StdMap` ordered by `std::less<std::string>`, which
  compares bytes as `unsigned char` and is the lexicographic order (`stringLess_iff_lt`);
* a failed `assert`, or a `NULL` from GLib, is `none`.
-/

namespace IndicatorNetwork

/-- A `std::string`: its bytes, which may include NUL. -/
abbrev StdString := List UInt8

/-- What GLib reads from a `const char *`: the bytes before the first NUL. -/
def cString (s : List UInt8) : List UInt8 := s.takeWhile (· ≠ 0)

theorem cString_noNul (s : List UInt8) : 0 ∉ cString s := fun h => by
  simpa using List.mem_takeWhile_imp h

theorem cString_of_noNul {s : List UInt8} (h : 0 ∉ s) : cString s = s :=
  List.takeWhile_eq_self_iff.mpr fun x hx => by simpa using fun e : x = 0 => h (e ▸ hx)

/-- Whether a byte lies in `[lo, hi]`. -/
def inRange (b lo hi : UInt8) : Bool := lo ≤ b && b ≤ hi

/-- `g_utf8_validate`: every character is one of the well-formed UTF-8 byte sequences of
    the Unicode standard (no overlong form, no surrogate, nothing above U+10FFFF). -/
def utf8Validate : List UInt8 → Bool
  | [] => true
  | b :: rest =>
      if b < 0x80 then utf8Validate rest
      else if inRange b 0xC2 0xDF then
        match rest with
        | c :: r => inRange c 0x80 0xBF && utf8Validate r
        | [] => false
      else if inRange b 0xE0 0xEF then
        match rest with
        | c₁ :: c₂ :: r =>
            inRange c₁ (if b = 0xE0 then 0xA0 else 0x80) (if b = 0xED then 0x9F else 0xBF) &&
              inRange c₂ 0x80 0xBF && utf8Validate r
        | _ => false
      else if inRange b 0xF0 0xF4 then
        match rest with
        | c₁ :: c₂ :: c₃ :: r =>
            inRange c₁ (if b = 0xF0 then 0x90 else 0x80) (if b = 0xF4 then 0x8F else 0xBF) &&
              inRange c₂ 0x80 0xBF && inRange c₃ 0x80 0xBF && utf8Validate r
        | _ => false
      else false

-- ── GVariant ──────────────────────────────────────────────────────────────────

/-- The GVariant types the codecs use. -/
inductive GVariantType
  | boolean
  | byte
  | int32
  | string
  | variant
  | array (element : GVariantType)
  | dictEntry (key value : GVariantType)
  deriving DecidableEq, Repr

/-- `G_VARIANT_TYPE_VARDICT`, `a{sv}`. -/
def GVariantType.vardict : GVariantType := .array (.dictEntry .string .variant)

/-- The contents of a GVariant string: valid UTF-8 with no NUL byte. -/
structure GString where
  bytes : List UInt8
  noNul : 0 ∉ bytes
  valid : utf8Validate bytes = true
  deriving DecidableEq

/-- A GVariant value. -/
inductive GVariant
  | boolean (b : Bool)
  | byte (b : UInt8)
  | int32 (i : BitVec 32)
  | string (s : GString)
  /-- A boxed value, type `v`. -/
  | variant (v : GVariant)
  | array (element : GVariantType) (children : List GVariant)
  | dictEntry (key value : GVariant)

mutual
/-- Structural equality of GVariants, decided. -/
def GVariant.decEq : (a b : GVariant) → Decidable (a = b)
  | .boolean a, .boolean b => decidable_of_iff (a = b) (by simp)
  | .byte a, .byte b => decidable_of_iff (a = b) (by simp)
  | .int32 a, .int32 b => decidable_of_iff (a = b) (by simp)
  | .string a, .string b => decidable_of_iff (a = b) (by simp)
  | .variant a, .variant b =>
      match GVariant.decEq a b with
      | isTrue h => isTrue (h ▸ rfl)
      | isFalse h => isFalse fun e => by cases e; exact h rfl
  | .array t as, .array u bs =>
      if h₁ : t = u then
        match GVariant.decEqList as bs with
        | isTrue h₂ => isTrue (h₁ ▸ h₂ ▸ rfl)
        | isFalse h₂ => isFalse fun e => by cases e; exact h₂ rfl
      else isFalse fun e => by cases e; exact h₁ rfl
  | .dictEntry k v, .dictEntry k' v' =>
      match GVariant.decEq k k', GVariant.decEq v v' with
      | isTrue h₁, isTrue h₂ => isTrue (h₁ ▸ h₂ ▸ rfl)
      | isFalse h, _ => isFalse fun e => by cases e; exact h rfl
      | _, isFalse h => isFalse fun e => by cases e; exact h rfl
  | .boolean _, .byte _ | .boolean _, .int32 _ | .boolean _, .string _
  | .boolean _, .variant _ | .boolean _, .array _ _ | .boolean _, .dictEntry _ _
  | .byte _, .boolean _ | .byte _, .int32 _ | .byte _, .string _
  | .byte _, .variant _ | .byte _, .array _ _ | .byte _, .dictEntry _ _
  | .int32 _, .boolean _ | .int32 _, .byte _ | .int32 _, .string _
  | .int32 _, .variant _ | .int32 _, .array _ _ | .int32 _, .dictEntry _ _
  | .string _, .boolean _ | .string _, .byte _ | .string _, .int32 _
  | .string _, .variant _ | .string _, .array _ _ | .string _, .dictEntry _ _
  | .variant _, .boolean _ | .variant _, .byte _ | .variant _, .int32 _
  | .variant _, .string _ | .variant _, .array _ _ | .variant _, .dictEntry _ _
  | .array _ _, .boolean _ | .array _ _, .byte _ | .array _ _, .int32 _
  | .array _ _, .string _ | .array _ _, .variant _ | .array _ _, .dictEntry _ _
  | .dictEntry _ _, .boolean _ | .dictEntry _ _, .byte _ | .dictEntry _ _, .int32 _
  | .dictEntry _ _, .string _ | .dictEntry _ _, .variant _ | .dictEntry _ _, .array _ _ =>
      isFalse fun e => by cases e
/-- Structural equality of lists of GVariants, decided. -/
def GVariant.decEqList : (as bs : List GVariant) → Decidable (as = bs)
  | [], [] => isTrue rfl
  | a :: as, b :: bs =>
      match GVariant.decEq a b, GVariant.decEqList as bs with
      | isTrue h₁, isTrue h₂ => isTrue (h₁ ▸ h₂ ▸ rfl)
      | isFalse h, _ => isFalse fun e => by cases e; exact h rfl
      | _, isFalse h => isFalse fun e => by cases e; exact h rfl
  | [], _ :: _ => isFalse fun e => by cases e
  | _ :: _, [] => isFalse fun e => by cases e
end

instance : DecidableEq GVariant := GVariant.decEq

/-- `g_variant_get_type`. -/
def GVariant.type : GVariant → GVariantType
  | .boolean _ => .boolean
  | .byte _ => .byte
  | .int32 _ => .int32
  | .string _ => .string
  | .variant _ => .variant
  | .array element _ => .array element
  | .dictEntry k v => .dictEntry k.type v.type

/-- `g_variant_new_string` on a `const gchar *`: it reads up to the first NUL and returns
    `NULL` for text that is not valid UTF-8. -/
def gVariantNewString (str : List UInt8) : Option GVariant :=
  if h : utf8Validate (cString str) then some (.string ⟨cString str, cString_noNul str, h⟩)
  else none

/-- `[Invalid UTF-8]`. -/
def invalidUtf8 : GString :=
  ⟨[91, 73, 110, 118, 97, 108, 105, 100, 32, 85, 84, 70, 45, 56, 93], by decide, by decide⟩

/-- The `s` of a `g_variant_new` format string (`g_variant_valist_new_nnp`), as
    `g_variant_builder_add` reads it: the text up to the first NUL, or, when that is not
    valid UTF-8, a critical warning and `invalidUtf8` in its place. -/
def gVariantNewVaString (str : List UInt8) : GString :=
  if h : utf8Validate (cString str) then ⟨cString str, cString_noNul str, h⟩ else invalidUtf8

/-- Whether a type is basic, as the key of a dictionary entry must be. -/
def GVariantType.isBasic : GVariantType → Bool
  | .boolean | .byte | .int32 | .string => true
  | _ => false

mutual
/-- Whether GLib can build this value: the children of an array have its element type, and
    the key of a dictionary entry is of a basic type. -/
def GVariant.wellTyped : GVariant → Bool
  | .variant v => v.wellTyped
  | .array element children => GVariant.wellTypedChildren element children
  | .dictEntry k v => k.type.isBasic && k.wellTyped && v.wellTyped
  | _ => true
/-- The children of an array of `element`s. -/
def GVariant.wellTypedChildren (element : GVariantType) : List GVariant → Bool
  | [] => true
  | c :: cs => (c.type = element && c.wellTyped) && GVariant.wellTypedChildren element cs
end

/-- A value GLib can build. -/
abbrev GValue := {g : GVariant // g.wellTyped = true}

-- ── `std::map<std::string, Variant>` ─────────────────────────────────────────

/-- `std::less<std::string>`: bytewise, each byte as `unsigned char`, a proper prefix first. -/
def stringLess : StdString → StdString → Bool
  | [], [] => false
  | [], _ :: _ => true
  | _ :: _, [] => false
  | a :: as, b :: bs => a < b || (a = b && stringLess as bs)

theorem byte_eq_of_not_lt {x y : UInt8} (h₁ : ¬ x < y) (h₂ : ¬ y < x) : x = y :=
  UInt8.eq_of_toBitVec_eq (BitVec.le_antisymm (UInt8.not_lt.1 h₂) (UInt8.not_lt.1 h₁))

/-- **LEXICOGRAPHIC**: `std::less<std::string>` is the lexicographic order on bytes. -/
theorem stringLess_iff_lt (a b : StdString) : stringLess a b = true ↔ List.lt a b := by
  induction a generalizing b with
  | nil =>
      cases b with
      | nil => exact ⟨nofun, nofun⟩
      | cons y ys => exact ⟨fun _ => .nil _ _, fun _ => rfl⟩
  | cons x xs ih =>
      cases b with
      | nil => exact ⟨nofun, nofun⟩
      | cons y ys => simp [stringLess, cons_lt_cons_iff UInt8.lt_irrefl byte_eq_of_not_lt, ih]

/-- The key order of `std::map<std::string, V>`. -/
def stringOrder : KeyOrder StdString :=
  .ofLex stringLess stringLess_iff_lt UInt8.lt_irrefl UInt8.lt_trans byte_eq_of_not_lt

-- ── The codecs ────────────────────────────────────────────────────────────────

/-- `Variant`: a possibly null `GVariant *`. -/
abbrev Variant := Option GVariant

/-- `Codec<T>`; `decodeArgument` is `none` where an `assert` of `decode_argument` fails. -/
class Codec (T : Type) where
  encodeArgument : T → Option GVariant
  decodeArgument : GVariant → Option T

/-- `TypedVariant<T>(value)`. -/
def typedVariant {T : Type} [Codec T] (value : T) : Variant := Codec.encodeArgument value

/-- `Variant::as<T>()`: `decode_argument` asserts a non-null variant of its type. -/
def Variant.as (T : Type) [Codec T] (v : Variant) : Option T := v.bind Codec.decodeArgument

instance : Codec Bool where
  encodeArgument b := some (.boolean b)
  decodeArgument
    | .boolean b => some b
    | _ => none

instance : Codec UInt8 where
  encodeArgument b := some (.byte b)
  decodeArgument
    | .byte b => some b
    | _ => none

/-- `std::int32_t`. -/
instance : Codec (BitVec 32) where
  encodeArgument i := some (.int32 i)
  decodeArgument
    | .int32 i => some i
    | _ => none

instance : Codec StdString where
  encodeArgument s := gVariantNewString s
  decodeArgument
    | .string g => some (cString g.bytes)
    | _ => none

/-- A `{sv}` entry: a string key and a boxed value. -/
def vardictEntry (p : GString × GVariant) : GVariant := .dictEntry (.string p.1) (.variant p.2)

/-- The entries of `encode_argument` for a map, in key order: each
    `g_variant_builder_add(&builder, "{sv}", pair.first.c_str(), pair.second)`. -/
def encodeVardict (entries : List (StdString × GVariant)) : List GVariant :=
  entries.map fun p => vardictEntry (gVariantNewVaString p.1, p.2)

/-- The `g_variant_iter_loop` of `decode_argument` for a map: `value[key] = val` per entry. -/
def decodeVardict (m : StdMap StdString GVariant stringOrder) :
    List GVariant → Option (StdMap StdString GVariant stringOrder)
  | [] => some m
  | .dictEntry (.string key) (.variant val) :: rest =>
      decodeVardict (m.assign (cString key.bytes) val) rest
  | _ :: _ => none

instance : Codec (StdMap StdString GVariant stringOrder) where
  encodeArgument m := some (.array (.dictEntry .string .variant) (encodeVardict m.entries))
  decodeArgument v :=
    if v.type = .vardict then
      match v with
      | .array _ children => decodeVardict .empty children
      | _ => none
    else none

/-- The `g_variant_iter_loop` of `decode_argument` for a vector: unbox each element. -/
def decodeAv : List GVariant → Option (List GVariant)
  | [] => some []
  | .variant v :: rest => (decodeAv rest).map (v :: ·)
  | _ :: _ => none

/-- `std::vector<Variant>`, as an `av` array. -/
instance : Codec (List GVariant) where
  encodeArgument vs := some (.array .variant (vs.map .variant))
  decodeArgument v :=
    if v.type = .array .variant then
      match v with
      | .array _ children => decodeAv children
      | _ => none
    else none

end IndicatorNetwork
