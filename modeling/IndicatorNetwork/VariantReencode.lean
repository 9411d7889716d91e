import IndicatorNetwork.VariantRoundTrip

/-!
# Decoding, then encoding — what `decode_argument` accepts comes back as it was

`VariantRoundTrip` follows a C++ value through `TypedVariant<T>(v).as<T>()`. This file goes
the other way, from a GVariant that arrived over D-Bus: decode it with `as<T>()`, encode the
result with `TypedVariant<T>`.

* `as<T>()` accepts every value of `T`'s type, for `b`, `y`, `i`, `s`, and for `av` every
  well-typed one (an array of boxed values); every value it accepts re-encodes to itself
  (`decode_encode_round_trip`): a GVariant string holds no NUL, so `c_str()` loses nothing
  on the way back. What `TypedVariant<T>` builds is well typed (`typedVariant_vector_wellTyped`,
  `typedVariant_map_wellTyped`).
* An `a{sv}` dictionary may hold a key twice and list its keys in any order; the source asks
  "do we trust the keys to be unique..?". `decode_argument` accepts exactly the
  dictionaries of `{sv}` entries, keeps at each key the value of the last entry with that
  key, and the map re-encodes to the dictionary exactly when its keys ascend strictly in
  byte order (`vardict_decode_spec`): only then is no entry dropped or moved.
-/

namespace IndicatorNetwork

theorem GString.eq_of_bytes {a b : GString} (h : a.bytes = b.bytes) : a = b := by
  cases a; cases b; cases h; rfl

/-- `g_variant_new_string` on the bytes of a GVariant string gives that string back. -/
theorem gVariantNewString_bytes (s : GString) : gVariantNewString s.bytes = some (.string s) := by
  have hc := cString_of_noNul s.noNul
  rw [gVariantNewString, dif_pos (by rw [hc]; exact s.valid)]
  exact congrArg (some ∘ GVariant.string) (GString.eq_of_bytes hc)

/-- `g_variant_new` reads the bytes of a GVariant string back as that string. -/
theorem gVariantNewVaString_bytes (s : GString) : gVariantNewVaString s.bytes = s := by
  have hc := cString_of_noNul s.noNul
  rw [gVariantNewVaString, dif_pos (by rw [hc]; exact s.valid)]
  exact GString.eq_of_bytes hc

theorem gVariantNewString_eq_some {str : List UInt8} {g : GVariant}
    (h : gVariantNewString str = some g) :
    ∃ s : GString, g = .string s ∧ s.bytes = cString str := by
  unfold gVariantNewString at h
  split_ifs at h
  exact ⟨_, (Option.some.inj h).symm, rfl⟩

-- ── Scalars, strings and vectors ──────────────────────────────────────────────

/-- The unboxing loop for `av` accepts only boxed elements. -/
theorem decodeAv_eq_some {cs vs : List GVariant} (h : decodeAv cs = some vs) :
    cs = vs.map .variant := by
  induction cs generalizing vs with
  | nil => cases h; rfl
  | cons c rest ih =>
      cases c <;> simp only [decodeAv, reduceCtorEq] at h
      obtain ⟨tail, htail, rfl⟩ := Option.map_eq_some'.1 h
      rw [ih htail, List.map_cons]

-- ── Well-typed values ─────────────────────────────────────────────────────────

@[simp] theorem wellTypedChildren_iff (element : GVariantType) (cs : List GVariant) :
    GVariant.wellTypedChildren element cs = true ↔
      ∀ c ∈ cs, c.type = element ∧ c.wellTyped = true := by
  induction cs with
  | nil => simp [GVariant.wellTypedChildren]
  | cons c rest ih => simp [GVariant.wellTypedChildren, ih]

/-- The unboxing loop for `av` accepts every list of boxed values. -/
theorem decodeAv_isSome {cs : List GVariant} (h : ∀ c ∈ cs, c.type = .variant) :
    (decodeAv cs).isSome := by
  induction cs with
  | nil => rfl
  | cons c rest ih =>
      simp only [List.mem_cons, forall_eq_or_imp] at h
      cases c <;> simp only [GVariant.type, reduceCtorEq, false_and] at h
      simpa [decodeAv] using ih h.2

/-- `TypedVariant<std::vector<Variant>>` of well-typed values is well typed: an `av` array of
    boxed values. -/
theorem typedVariant_vector_wellTyped (vs : List GValue) :
    ∃ g : GValue, typedVariant (vs.map Subtype.val) = some g.1 :=
  ⟨⟨_, by
    refine (wellTypedChildren_iff _ _).2 fun c hc => ?_
    obtain ⟨v, hv, rfl⟩ := List.mem_map.1 hc
    obtain ⟨⟨v, hw⟩, -, rfl⟩ := List.mem_map.1 hv
    exact ⟨rfl, hw⟩⟩, rfl⟩

/-- `TypedVariant<std::map<std::string, Variant>>` of well-typed values is well typed: an
    `a{sv}` array of entries with a string key and a boxed value. -/
theorem typedVariant_map_wellTyped (m : StdMap StdString GVariant stringOrder)
    (h : ∀ p ∈ m.entries, p.2.wellTyped = true) :
    ∃ g : GValue, typedVariant m = some g.1 :=
  ⟨⟨_, by
    refine (wellTypedChildren_iff _ _).2 fun c hc => ?_
    obtain ⟨p, hp, rfl⟩ := List.mem_map.1 hc
    simpa [vardictEntry, GVariant.wellTyped, GVariant.type, GVariantType.isBasic] using h p hp⟩,
    rfl⟩

-- ── Decoding, then encoding ───────────────────────────────────────────────────

/-- **RE-ENCODING** — `as<T>()` accepts every GVariant of `T`'s type, for `bool`,
    `std::uint8_t`, `std::int32_t` and `std::string`, and every well-typed one for
    `std::vector<Variant>`; and `TypedVariant<T>(v.as<T>())` is `v` for every GVariant `v`
    that `as<T>()` accepts. -/
theorem decode_encode_round_trip :
    ((∀ g : GVariant, (Variant.as Bool (some g)).isSome ↔ g.type = .boolean) ∧
      ∀ (g : GVariant) (b : Bool), Variant.as Bool (some g) = some b → typedVariant b = some g) ∧
    ((∀ g : GVariant, (Variant.as UInt8 (some g)).isSome ↔ g.type = .byte) ∧
      ∀ (g : GVariant) (x : UInt8), Variant.as UInt8 (some g) = some x → typedVariant x = some g) ∧
    ((∀ g : GVariant, (Variant.as (BitVec 32) (some g)).isSome ↔ g.type = .int32) ∧
      ∀ (g : GVariant) (x : BitVec 32),
        Variant.as (BitVec 32) (some g) = some x → typedVariant x = some g) ∧
    ((∀ g : GVariant, (Variant.as StdString (some g)).isSome ↔ g.type = .string) ∧
      ∀ (g : GVariant) (s : StdString),
        Variant.as StdString (some g) = some s → typedVariant s = some g) ∧
    ((∀ g : GValue, (Variant.as (List GVariant) (some g.1)).isSome ↔ g.1.type = .array .variant) ∧
      ∀ (g : GVariant) (vs : List GVariant),
        Variant.as (List GVariant) (some g) = some vs → typedVariant vs = some g) := by
  refine ⟨⟨?acceptBool, ?bool⟩, ⟨?acceptByte, ?byte⟩, ⟨?acceptInt32, ?int32⟩,
    ⟨?acceptString, ?string⟩, ⟨?acceptVector, ?vector⟩⟩
  case acceptBool | acceptByte | acceptInt32 | acceptString =>
    intro g
    cases g <;> simp [Variant.as, Codec.decodeArgument, GVariant.type]
  case bool | byte | int32 =>
    intro g x h
    cases g <;> simp only [Variant.as, Option.some_bind, Codec.decodeArgument, reduceCtorEq,
      Option.some.injEq] at h
    subst h; rfl
  case string =>
    intro g s h
    cases g <;> simp only [Variant.as, Option.some_bind, Codec.decodeArgument, reduceCtorEq,
      Option.some.injEq] at h
    rename_i gs
    rw [← h, cString_of_noNul gs.noNul]
    exact gVariantNewString_bytes gs
  case acceptVector =>
    rintro ⟨g, hg⟩
    cases g <;> simp [Variant.as, Codec.decodeArgument, GVariant.type]
    rename_i elem cs
    split_ifs with helem
    · subst helem
      exact iff_of_true (decodeAv_isSome fun c hc => ((wellTypedChildren_iff _ _).1 hg c hc).1) rfl
    · simpa using helem
  case vector =>
    intro g vs h
    cases g <;> simp only [Variant.as, Option.some_bind, Codec.decodeArgument, GVariant.type,
      reduceCtorEq, if_false] at h
    rename_i elem cs
    split_ifs at h with helem
    cases helem
    rw [decodeAv_eq_some h]
    rfl

/-- `true`, `"hi"` and `[<byte 1>]` decoded and encoded again; `[<byte 1>]` is accepted as
    an `av` array and `byte 1` is not accepted as a `bool`. -/
theorem decode_encode_round_trip_samples :
    typedVariant true = some (.boolean true) ∧
      typedVariant ([104, 105] : StdString) = some (.string ⟨[104, 105], by decide, by decide⟩) ∧
      typedVariant [GVariant.byte 1] = some (.array .variant [.variant (.byte 1)]) ∧
      (Variant.as (List GVariant) (some (.array .variant [.variant (.byte 1)]))).isSome ∧
      ¬ (Variant.as Bool (some (.byte 1))).isSome :=
  ⟨decode_encode_round_trip.1.2 _ _ rfl, decode_encode_round_trip.2.2.2.1.2 _ _ rfl,
    decode_encode_round_trip.2.2.2.2.2 _ _ rfl,
    (decode_encode_round_trip.2.2.2.2.1 ⟨_, by decide⟩).2 rfl,
    fun h => nomatch (decode_encode_round_trip.1.1 _).1 h⟩

-- ── Dictionaries ──────────────────────────────────────────────────────────────

/-- The `a{sv}` dictionary of these entries, in this order, duplicates included. -/
def GVariant.vardict (es : List (GString × GVariant)) : GVariant :=
  .array (.dictEntry .string .variant) (es.map vardictEntry)

/-- The decoding loop accepts only `{sv}` entries. -/
theorem decodeVardict_isSome {m : StdMap StdString GVariant stringOrder} {cs : List GVariant}
    (h : (decodeVardict m cs).isSome) :
    ∃ es : List (GString × GVariant), cs = es.map vardictEntry := by
  induction m, cs using decodeVardict.induct with
  | case1 => exact ⟨[], rfl⟩
  | case2 m key val rest ih =>
      obtain ⟨es, rfl⟩ := ih h
      exact ⟨(key, val) :: es, rfl⟩
  | case3 m c rest hc =>
      rw [decodeVardict] at h
      · simp at h
      · exact hc

theorem as_vardict (es : List (GString × GVariant)) :
    Variant.as (StdMap StdString GVariant stringOrder) (some (GVariant.vardict es)) =
      some ((vardictPairs es).foldl (fun acc p => acc.assign p.1 p.2) .empty) := by
  simp [Variant.as, Codec.decodeArgument, GVariant.vardict, GVariant.type, GVariantType.vardict,
    decodeVardict_vardict]

theorem encodeVardict_vardictPairs (es : List (GString × GVariant)) :
    encodeVardict (vardictPairs es) = es.map vardictEntry := by
  simp [encodeVardict, vardictPairs, gVariantNewVaString_bytes]

theorem vardictEntry_injective : Function.Injective vardictEntry := fun a b h => by
  simp only [vardictEntry, GVariant.dictEntry.injEq, GVariant.string.injEq,
    GVariant.variant.injEq] at h
  exact Prod.ext h.1 h.2

/-- What encodes to a dictionary's entries has its keys, as `g_variant_new` writes them,
    and values. -/
theorem encodeVardict_eq_vardict {l : List (StdString × GVariant)}
    {es : List (GString × GVariant)} (h : encodeVardict l = es.map vardictEntry) :
    l.map (fun p => ((gVariantNewVaString p.1).bytes, p.2)) = vardictPairs es := by
  have hkeys : l.map (fun p => (gVariantNewVaString p.1, p.2)) = es :=
    List.map_injective_iff.2 vardictEntry_injective ((List.map_map _ _ _).trans h)
  simp [← hkeys, vardictPairs]

/-- The decoded map re-encodes to the dictionary exactly when the keys ascend strictly. -/
theorem typedVariant_decoded_vardict_iff (es : List (GString × GVariant)) :
    typedVariant ((vardictPairs es).foldl (fun acc p => acc.assign p.1 p.2)
        (StdMap.empty : StdMap StdString GVariant stringOrder)) = some (GVariant.vardict es) ↔
      (es.map fun p => p.1.bytes).Pairwise fun a b => stringLess a b = true := by
  set m := (vardictPairs es).foldl (fun acc p => acc.assign p.1 p.2)
    (StdMap.empty : StdMap StdString GVariant stringOrder)
  have hkeys : (vardictPairs es).map Prod.fst = es.map fun p => p.1.bytes := by
    simp [vardictPairs]
  constructor
  · intro h
    have henc : encodeVardict m.entries = es.map vardictEntry := by
      simpa [typedVariant, Codec.encodeArgument, GVariant.vardict] using h
    have hkey : ∀ p ∈ m.entries, (gVariantNewVaString p.1).bytes = p.1 := fun p hp => by
      rcases mem_keys_foldl_assign (List.mem_map_of_mem Prod.fst hp) with h | h
      · simp [m, StdMap.empty] at h
      · obtain ⟨e, -, he⟩ := List.mem_map.1 (hkeys ▸ h)
        rw [← he, gVariantNewVaString_bytes]
    have hentries : m.entries = vardictPairs es := by
      rw [← encodeVardict_eq_vardict henc]
      exact (List.map_id' _).symm.trans (List.map_congr_left fun p hp => by simp [hkey p hp])
    simpa [KeysAscend, hentries, hkeys, stringOrder, KeyOrder.ofLex] using m.sorted
  · intro h
    have hasc : KeysAscend stringOrder (vardictPairs es) := by
      simpa [KeysAscend, hkeys, stringOrder, KeyOrder.ofLex] using h
    have hentries : m.entries = vardictPairs es := by
      simpa using (foldl_assign_entries StdMap.empty (vardictPairs es) id).trans
        (foldl_placeEntry_ascending [] (vardictPairs es) (by simpa using hasc))
    simp [typedVariant, Codec.encodeArgument, hentries, encodeVardict_vardictPairs,
      GVariant.vardict]

/-- **DICTIONARY DECODING** — `decode_argument` for `std::map<std::string, Variant>` accepts
    exactly the `a{sv}` dictionaries. From one it keeps, at each key, the value of the last
    entry with that key, and the map it builds encodes back to the same dictionary exactly
    when the keys ascend strictly in `std::less<std::string>`: a repeated key or keys out of
    order are not refused, but come back merged or sorted. -/
theorem vardict_decode_spec :
    (∀ g : GVariant, (Variant.as (StdMap StdString GVariant stringOrder) (some g)).isSome ↔
      ∃ es, g = GVariant.vardict es) ∧
    ∀ es : List (GString × GVariant),
      ∃ m, Variant.as (StdMap StdString GVariant stringOrder) (some (GVariant.vardict es)) =
          some m ∧
        (∀ k, m.find? k = lookupEntry k (vardictPairs es).reverse) ∧
        (typedVariant m = some (GVariant.vardict es) ↔
          (es.map fun p => p.1.bytes).Pairwise fun a b => stringLess a b = true) := by
  refine ⟨fun g => ⟨fun h => ?_, ?_⟩, fun es => ⟨_, as_vardict es, fun k => ?_,
    typedVariant_decoded_vardict_iff es⟩⟩
  · cases g <;> simp only [Variant.as, Option.some_bind, Codec.decodeArgument, GVariant.type,
      GVariantType.vardict, reduceCtorEq, if_false, Option.isSome_none,
      Bool.false_eq_true] at h
    rename_i elem cs
    split_ifs at h with helem
    · cases helem
      obtain ⟨es, rfl⟩ := decodeVardict_isSome h
      exact ⟨es, rfl⟩
    · cases h
  · rintro ⟨es, rfl⟩
    simp [as_vardict]
  · simpa using StdMap.find?_foldl_assign StdMap.empty (vardictPairs es) id k

/-- The dictionary `{"k": byte 1, "k": byte 2}` decodes to `{"k": byte 2}`, which encodes
    to a dictionary of one entry. -/
example :
    let k : GString := ⟨[107], by decide, by decide⟩
    let es := [(k, GVariant.byte 1), (k, GVariant.byte 2)]
    Variant.as (StdMap StdString GVariant stringOrder) (some (GVariant.vardict es)) =
        some ⟨[([107], .byte 2)], by decide⟩ ∧
      typedVariant (⟨[([107], .byte 2)], by decide⟩ : StdMap StdString GVariant stringOrder) ≠
        some (GVariant.vardict es) :=
  ⟨(as_vardict _).trans rfl, by decide⟩

end IndicatorNetwork
