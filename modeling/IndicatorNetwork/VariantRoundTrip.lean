import IndicatorNetwork.Variant

/-!
# `Variant` round trips — what `TypedVariant<T>(v).as<T>()` gives back

* `bool`, `std::uint8_t` and `std::int32_t` come back unchanged.
* A `std::string` reaches `g_variant_new_string` through `c_str()`, so it comes back cut at
  its first NUL byte, or not at all when those bytes are not valid UTF-8: the round trip is
  the identity exactly on valid strings without NUL (`string_round_trip_spec`).
* A map always comes back, as its entries assigned in key order under their keys as
  `g_variant_new` wrote them (`as_typedVariant_map`): cut at the first NUL, or
  `[Invalid UTF-8]` when the text before it is not valid UTF-8. Keys that agree up to a
  NUL collapse into one entry, the last one in key order winning (`map_round_trip_spec`).
  With NUL-free valid keys the map comes back unchanged.
* A vector of variants comes back element for element.

`codec_round_trip` gathers the cases in which nothing is lost, and what the NUL cut does
to strings and to maps with valid keys.
-/

namespace IndicatorNetwork

theorem cString_cString (s : List UInt8) : cString (cString s) = cString s :=
  cString_of_noNul (cString_noNul s)

-- ── Strings ───────────────────────────────────────────────────────────────────

/-- A string comes back as the bytes before its first NUL, when those are valid UTF-8. -/
theorem as_typedVariant_string (s : StdString) (h : utf8Validate (cString s) = true) :
    (typedVariant s).as StdString = some (cString s) := by
  simp [typedVariant, Variant.as, Codec.encodeArgument, Codec.decodeArgument, gVariantNewString,
    h, cString_cString]

/-- `"h\0i"` comes back as `"h"`. -/
example : (typedVariant ([104, 0, 105] : StdString)).as StdString = some [104] := by decide

/-- **STRING ROUND TRIP**: a string comes back as its bytes before the first NUL when those
    are valid UTF-8, and as nothing (a failed `assert`) when they are not; so it comes back
    unchanged exactly when it is valid UTF-8 with no NUL byte. -/
theorem string_round_trip_spec (s : StdString) :
    (typedVariant s).as StdString = (if utf8Validate (cString s) then some (cString s) else none) ∧
      ((typedVariant s).as StdString = some s ↔ 0 ∉ s ∧ utf8Validate s = true) := by
  have hspec : (typedVariant s).as StdString =
      if utf8Validate (cString s) then some (cString s) else none := by
    split_ifs with h
    · exact as_typedVariant_string s h
    · simp [typedVariant, Variant.as, Codec.encodeArgument, gVariantNewString, h]
  refine ⟨hspec, ?_⟩
  rw [hspec]
  split_ifs with h
  · exact ⟨fun e => Option.some.inj e ▸ ⟨cString_noNul s, h⟩,
      fun ⟨h0, _⟩ => congrArg some (cString_of_noNul h0)⟩
  · exact iff_of_false (by simp) fun ⟨h0, hv⟩ => h (by rwa [cString_of_noNul h0])

/-- `"a\0b"` is valid UTF-8, and does not come back. -/
theorem string_with_nul_not_round_trip :
    ¬ ∀ s : StdString, utf8Validate s = true → (typedVariant s).as StdString = some s :=
  fun h => absurd (h [97, 0, 98] (by decide)) (by decide)

-- ── Maps ──────────────────────────────────────────────────────────────────────

/-- A key comes back cut at its first NUL, or as `[Invalid UTF-8]` when the text before the
    NUL is not valid UTF-8. -/
theorem bytes_gVariantNewVaString (k : StdString) :
    (gVariantNewVaString k).bytes =
      if utf8Validate (cString k) then cString k else invalidUtf8.bytes := by
  unfold gVariantNewVaString
  split_ifs <;> rfl

/-- The entries of a dictionary as the decoder reads them: key bytes and value. -/
def vardictPairs (es : List (GString × GVariant)) : List (StdString × GVariant) :=
  es.map fun p => (p.1.bytes, p.2)

/-- The decoding loop assigns the entries one by one, in the dictionary's order. -/
theorem decodeVardict_vardict (m : StdMap StdString GVariant stringOrder)
    (es : List (GString × GVariant)) :
    decodeVardict m (es.map vardictEntry) =
      some ((vardictPairs es).foldl (fun acc p => acc.assign p.1 p.2) m) := by
  induction es generalizing m with
  | nil => rfl
  | cons e rest ih =>
      simp only [List.map_cons, vardictEntry, decodeVardict, cString_of_noNul e.1.noNul]
      exact ih _

/-- The dictionary loop of `decode_argument` over what `encode_argument` built assigns every
    entry, in key order, under its key as `g_variant_new` wrote it. -/
theorem decodeVardict_encodeVardict (m : StdMap StdString GVariant stringOrder)
    (l : List (StdString × GVariant)) :
    decodeVardict m (encodeVardict l) =
      some (l.foldl (fun acc p => acc.assign (gVariantNewVaString p.1).bytes p.2) m) := by
  simpa [vardictPairs, List.foldl_map] using
    decodeVardict_vardict m (l.map fun p => (gVariantNewVaString p.1, p.2))

/-- A map comes back as its entries assigned in key order under their keys as
    `g_variant_new` wrote them. -/
theorem as_typedVariant_map (m : StdMap StdString GVariant stringOrder) :
    (typedVariant m).as (StdMap StdString GVariant stringOrder) =
      some (m.entries.foldl (fun acc p => acc.assign (gVariantNewVaString p.1).bytes p.2) .empty) := by
  simp [typedVariant, Variant.as, Codec.encodeArgument, Codec.decodeArgument,
    decodeVardict_encodeVardict, GVariant.type, GVariantType.vardict]

/-- Keys `"a\0x"` and `"a\0y"` both come back as `"a"`: one entry, the later value. -/
example :
    (typedVariant (⟨[([97, 0, 120], .byte 1), ([97, 0, 121], .byte 2)], by decide⟩ :
      StdMap StdString GVariant stringOrder)).as (StdMap StdString GVariant stringOrder) =
        some ⟨[([97], .byte 2)], by decide⟩ :=
  (as_typedVariant_map _).trans rfl

/-- The key `"\xff"` is not UTF-8: it comes back as `"[Invalid UTF-8]"`. -/
example :
    (typedVariant (⟨[([255], .byte 1)], by decide⟩ : StdMap StdString GVariant stringOrder)).as
        (StdMap StdString GVariant stringOrder) = some ⟨[(invalidUtf8.bytes, .byte 1)], by decide⟩ :=
  (as_typedVariant_map _).trans rfl

/-- **MAP ROUND TRIP**: every map comes back, and at each key holds the value of the last
    entry, in key order, whose key comes back as that key: cut at its first NUL when the text
    before it is valid UTF-8, `[Invalid UTF-8]` otherwise. Keys that agree up to a NUL
    collapse, the last one winning. -/
theorem map_round_trip_spec (m : StdMap StdString GVariant stringOrder) :
    ∃ d, (typedVariant m).as (StdMap StdString GVariant stringOrder) = some d ∧
      ∀ k, d.find? k = lookupEntry k (m.entries.map fun p =>
        (if utf8Validate (cString p.1) then cString p.1 else invalidUtf8.bytes, p.2)).reverse :=
  ⟨_, as_typedVariant_map m, fun k => by
    rw [StdMap.find?_foldl_assign _ _ fun k => (gVariantNewVaString k).bytes]
    simp [bytes_gVariantNewVaString]⟩

/-- With keys valid up to their first NUL, the map comes back with each key cut there and
    the last value of the keys that collapse into it. -/
theorem find?_as_typedVariant_map (m : StdMap StdString GVariant stringOrder)
    (h : ∀ p ∈ m.entries, utf8Validate (cString p.1) = true) :
    ∃ d, (typedVariant m).as (StdMap StdString GVariant stringOrder) = some d ∧
      ∀ k, d.find? k = lookupEntry k (m.entries.map fun p => (cString p.1, p.2)).reverse :=
  ⟨_, as_typedVariant_map m, fun k => by
    rw [StdMap.find?_foldl_assign _ _ fun k => (gVariantNewVaString k).bytes,
      List.map_congr_left fun p hp => by rw [bytes_gVariantNewVaString, if_pos (h p hp)]]
    simp⟩

/-- With NUL-free valid keys the map comes back unchanged. -/
theorem as_typedVariant_map_of_noNul (m : StdMap StdString GVariant stringOrder)
    (h : ∀ p ∈ m.entries, 0 ∉ p.1 ∧ utf8Validate p.1 = true) :
    (typedVariant m).as (StdMap StdString GVariant stringOrder) = some m := by
  rw [as_typedVariant_map m]
  congr 1
  calc _ = m.entries.foldl (fun acc p => acc.assign p.1 p.2) StdMap.empty :=
        List.foldl_ext _ _ _ fun acc p hp => by
          rw [bytes_gVariantNewVaString, cString_of_noNul (h p hp).1, if_pos (h p hp).2]
    _ = m := foldl_assign_self m

-- ── Vectors ───────────────────────────────────────────────────────────────────

theorem decodeAv_map_variant (vs : List GVariant) : decodeAv (vs.map .variant) = some vs := by
  induction vs with
  | nil => rfl
  | cons v rest ih => simp [decodeAv, ih]

theorem as_typedVariant_vector (vs : List GVariant) :
    (typedVariant vs).as (List GVariant) = some vs := by
  simp [typedVariant, Variant.as, Codec.encodeArgument, Codec.decodeArgument, GVariant.type,
    decodeAv_map_variant]

/-- **ROUND TRIP** — `TypedVariant<T>(v).as<T>() == v` for every `Codec` specialisation,
    on the values that reach GLib whole: any `bool`, `std::uint8_t`, `std::int32_t` and
    vector of (non-null) variants; a string that is valid UTF-8 with no NUL byte; a map
    whose keys are. The map comes back with the same entries, so the same keys, none
    merged, and `g_variant_equal` values. Read through `c_str()`, a string valid UTF-8 up
    to its first NUL comes back cut there; so do the keys of a map, and keys that agree up
    to a NUL collapse into one entry holding the value of the last of them in key order. -/
theorem codec_round_trip :
    (∀ b : Bool, (typedVariant b).as Bool = some b) ∧
    (∀ x : UInt8, (typedVariant x).as UInt8 = some x) ∧
    (∀ x : BitVec 32, (typedVariant x).as (BitVec 32) = some x) ∧
    (∀ s : StdString, 0 ∉ s → utf8Validate s = true → (typedVariant s).as StdString = some s) ∧
    (∀ s : StdString, utf8Validate (cString s) = true →
      (typedVariant s).as StdString = some (cString s)) ∧
    (∀ m : StdMap StdString GVariant stringOrder,
      (∀ p ∈ m.entries, 0 ∉ p.1 ∧ utf8Validate p.1 = true) →
      (typedVariant m).as (StdMap StdString GVariant stringOrder) = some m) ∧
    (∀ m : StdMap StdString GVariant stringOrder,
      (∀ p ∈ m.entries, utf8Validate (cString p.1) = true) →
      ∃ d, (typedVariant m).as (StdMap StdString GVariant stringOrder) = some d ∧
        ∀ k, d.find? k = lookupEntry k (m.entries.map fun p => (cString p.1, p.2)).reverse) ∧
    (∀ vs : List GVariant, (typedVariant vs).as (List GVariant) = some vs) :=
  ⟨fun _ => rfl, fun _ => rfl, fun _ => rfl,
    fun s h0 hv => by rw [as_typedVariant_string s (by rwa [cString_of_noNul h0]),
      cString_of_noNul h0],
    as_typedVariant_string, as_typedVariant_map_of_noNul, find?_as_typedVariant_map,
    as_typedVariant_vector⟩

/-- `"hi"` comes back unchanged and `"h\0i"` as `"h"`; the map `{"k": byte 70}` comes
    back unchanged, and `{"a\0x": byte 1, "a\0y": byte 2}` with `"a"` holding `byte 2`. -/
theorem codec_round_trip_hi :
    (typedVariant ([104, 105] : StdString)).as StdString = some [104, 105] ∧
      (typedVariant ([104, 0, 105] : StdString)).as StdString = some [104] ∧
      (typedVariant (⟨[([107], .byte 70)], by decide⟩ : StdMap StdString GVariant stringOrder)).as
        (StdMap StdString GVariant stringOrder) = some ⟨[([107], .byte 70)], by decide⟩ ∧
      ∃ d, (typedVariant (⟨[([97, 0, 120], .byte 1), ([97, 0, 121], .byte 2)], by decide⟩ :
          StdMap StdString GVariant stringOrder)).as (StdMap StdString GVariant stringOrder) =
            some d ∧ d.find? [97] = some (.byte 2) := by
  obtain ⟨d, hd, hfind⟩ := codec_round_trip.2.2.2.2.2.2.1
    (⟨[([97, 0, 120], .byte 1), ([97, 0, 121], .byte 2)], by decide⟩ :
      StdMap StdString GVariant stringOrder) (by decide)
  exact ⟨codec_round_trip.2.2.2.1 _ (by decide) (by decide),
    codec_round_trip.2.2.2.2.1 _ (by decide), codec_round_trip.2.2.2.2.2.1 _ (by decide),
    d, hd, (hfind [97]).trans (by decide)⟩

end IndicatorNetwork
