import ZenohPico.Network.Bodies

/-!
Declarations on the wire (`src/protocol/codec/declarations.c`).

The key of a declared key expression is one of the sender, since its header has no flag for the
mapping. The key of an undeclared entity is an extension, which is left out of a key that is absent,
and whose suffix has a length of 32 bits.
-/

namespace ZenohPico.Network

open Protocol Transport Session List

/-! ### Headers -/

section Header

variable {base : UInt8}

theorem header_more (hbase : base &&& 0xE0 = 0) (z : Bool) :
    mid (base ||| flagIf z 0x80) = base ∧ hasFlag (base ||| flagIf z 0x80) 0x80 = z := by
  have h := header_flags hbase false false z
  have hnone : base ||| (flagIf false 0x40 ||| flagIf false 0x20) = base := UInt8.or_zero
  simp only [hnone] at h
  exact ⟨h.1, h.2.2.2⟩

theorem extsDecode_none {σ : Type} {header : UInt8} {callback : MsgExt → σ → Except ZError σ}
    {context : σ} (hflag : hasFlag header 0x80 = false) (zbf : List UInt8) :
    extsDecode header callback context zbf = .ok (context, zbf) := by
  rw [extsDecode, fieldDecode, hflag, if_neg Bool.false_ne_true, Decoder.pure_apply]

end Header

/-! ### The key of an undeclared entity -/

/-- The length of the key in an extension is one of 32 bits. -/
def ExtKeyFormed (ke : WireExpr) : Prop := ke.suffix.length + 4 < 2 ^ 32

/-- The bytes of a key in an extension -/
def extKeyBytes (ke : WireExpr) : List UInt8 :=
  (flagIf (isLocal ke) 2 ||| flagIf (hasSuffix ke) 1) :: (zint64Encode ke.id.toUInt64 ++ ke.suffix)

/-- The extension with a key -/
def keyExt (ke : WireExpr) : MsgExt := ⟨0x5F, .zbuf (extKeyBytes ke)⟩

/-- The key of an undeclared entity, as the receiver sees it -/
def receivedExtKey (ke : WireExpr) : WireExpr :=
  if wireexprCheck ke then receivedKey ke else wireexprNull

/-- A number of 16 bits takes three bytes at most. -/
theorem zintLen_le_three (v : UInt16) : zintLen v.toUInt64 ≤ 3 := by
  have hv : v.toUInt64 &&& vleLenMask 3 = 0 := by
    rw [and_vleLenMask_eq_zero_iff _ (by decide), UInt16.toNat_toUInt64]
    exact v.toNat_lt.trans (by decide)
  simp only [zintLen, zintLenFrom]
  split_ifs <;> omega

section Undeclared

variable {ke : WireExpr}

theorem validExt_key (h : ExtKeyFormed ke) : ValidExt (keyExt ke) := by
  refine validExt_zbuf (by decide) (by decide) ?_
  have hid := zintLen_le_three ke.id
  have hlen : ke.suffix.length + 4 < 2 ^ 32 := h
  rw [extKeyBytes, length_cons, length_append, length_zint64Encode]
  omega

theorem declExtKeyexprEncode_eq (h : ExtKeyFormed ke) :
    declExtKeyexprEncode ke false = 0x5F :: sliceEncode (extKeyBytes ke) := by
  have hlen : ke.suffix.length + 4 < 2 ^ 32 := h
  have hid := zintLen_le_three ke.id
  have hkelen : (if hasSuffix ke then UInt32.ofNat ke.suffix.length else 0) =
      .ofNat ke.suffix.length := by
    by_cases hnil : ke.suffix = []
    · simp [hnil]
    · exact if_pos (decide_eq_true hnil)
  have hnat : (UInt32.ofNat ke.suffix.length).toNat = ke.suffix.length := by
    rw [UInt32.toNat_ofNat']
    omega
  have hnonzero : decide (UInt32.ofNat ke.suffix.length ≠ 0) = hasSuffix ke := by
    rw [hasSuffix, decide_eq_decide, ne_eq, ne_eq, ← length_eq_zero_iff, ← UInt32.toNat_inj, hnat]
    rfl
  have hsize : (1 + UInt32.ofNat ke.suffix.length + .ofNat (zintLen ke.id.toUInt64)).toUInt64 =
      .ofNat (extKeyBytes ke).length := by
    apply UInt64.toNat_inj.mp
    rw [UInt32.toNat_toUInt64, UInt32.toNat_add, UInt32.toNat_add, hnat, UInt32.toNat_ofNat',
      UInt64.toNat_ofNat', extKeyBytes, length_cons, length_append, length_zint64Encode]
    simp only [UInt32.reduceToNat]
    omega
  have hheader : (0x5F : UInt8) ||| flagIf false 0x80 = 0x5F := by decide
  rw [declExtKeyexprEncode, hkelen, hheader, hsize, hnonzero, hnat, take_length, sliceEncode,
    extKeyBytes]
  simp only [append_assoc, cons_append]

theorem extKeyFlags (m n : Bool) : hasFlag (flagIf m 2 ||| flagIf n 1) 2 = m ∧
    hasFlag (flagIf m 2 ||| flagIf n 1) 1 = n := by
  cases m <;> cases n <;> decide

/-- The key in the extension is read in the place of an absent one. -/
theorem undeclDecodeExt_key (ke : WireExpr) :
    undeclDecodeExt (keyExt ke) wireexprNull = .ok (receivedKey ke) := by
  obtain ⟨hlocal, hsuffix⟩ := extKeyFlags (isLocal ke) (hasSuffix ke)
  rw [undeclDecodeExt, keyExt, if_pos rfl, MsgExtBody.bytes, extKeyBytes, uint8Decode_cons]
  simp only [bind, Except.bind, zint16Decode_encode, hlocal, hsuffix]
  by_cases hnil : ke.suffix = [] <;>
    simp [hasSuffix, isLocal, hnil, receivedKey, wireexprNull]

theorem undecl_readBack {base : UInt8} (hbase : base &&& 0xE0 = 0) (id : UInt32)
    (h : ExtKeyFormed ke) : ReadBack (.ok (undeclEncode base id ke)) base undeclTrivialDecode
      (id, receivedExtKey ke) := by
  obtain ⟨hmid, hexts⟩ := header_more hbase (wireexprCheck ke)
  have hchain : (if wireexprCheck ke then declExtKeyexprEncode ke false else []) =
      extChainEncode (optExt (wireexprCheck ke) (keyExt ke)) := by
    rw [declExtKeyexprEncode_eq h, extChainEncode_optExt_last (validExt_key h)]
    rfl
  have hfold : (optExt (wireexprCheck ke) (keyExt ke)).foldlM
      (fun context ext ↦ undeclDecodeExt ext context) wireexprNull = .ok (receivedExtKey ke) :=
    foldlM_optExt_last
      (fun hcheck ↦ by rw [receivedExtKey, if_pos hcheck, undeclDecodeExt_key])
      fun hcheck ↦ by rw [receivedExtKey, hcheck, if_neg Bool.false_ne_true]
  refine ⟨_, _, rfl, hmid, fun zbf ↦ ?_⟩
  rw [hchain, undeclTrivialDecode, append_assoc, Decoder.bind_of_ok (zint32Decode_encode _ _)]
  exact Decoder.bind_of_ok (extsDecode_chain (by rw [hexts, optExt_ne_nil])
    (forall_mem_optExt.mpr fun _ ↦ validExt_key h) hfold zbf) _

end Undeclared

/-! ### Declared entities -/

section Declared

variable {base : UInt8} {key : WireExpr}

/-- A declaration that is read up to its extensions -/
theorem declCommonsDecode_encode (hbase : base &&& 0xE0 = 0) (h : KeyFormed key) (z : Bool)
    (id : UInt32) (zbf : List UInt8) : declCommonsDecode (base ||| keyFlags key ||| flagIf z 0x80)
        (zint64Encode id.toUInt64 ++ (wireexprEncode (hasSuffix key) key ++ zbf)) =
      .ok ((id, receivedKey key), zbf) := by
  obtain ⟨-, -, hkey⟩ := keyHeader hbase h z
  rw [declCommonsDecode, Decoder.bind_of_ok (zint32Decode_encode _ _),
    Decoder.bind_of_ok (hkey _), Decoder.pure_apply]

theorem decl_readBack (hbase : base &&& 0xE0 = 0) (id : UInt32) (h : KeyFormed key) :
    ReadBack (.ok (declCommonsEncode base false id key)) base declTrivialDecode
      (id, receivedKey key) := by
  obtain ⟨hmid, hexts, -⟩ := keyHeader hbase h false
  refine ⟨_, _, rfl, hmid, fun zbf ↦ ?_⟩
  rw [declTrivialDecode, append_assoc,
    Decoder.bind_of_ok (declCommonsDecode_encode hbase h false id zbf),
    Decoder.bind_of_ok (extsDecode_none hexts zbf), Decoder.pure_apply]

theorem declKexpr_readBack (id : UInt16) (h : KeyFormed key) :
    ReadBack (.ok (declKexprEncode id key)) 0x00 declKexprDecode
      (.declKexpr id { key with mapping := .peer }) := by
  obtain ⟨hmid, -, hsuffix, hexts⟩ :=
    header_flags (show (0x00 : UInt8) &&& 0xE0 = 0 by decide) false (hasSuffix key) false
  have hheader : (0x00 : UInt8) ||| (flagIf false 0x40 ||| flagIf (hasSuffix key) 0x20) |||
      flagIf false 0x80 = 0x00 ||| flagIf (hasSuffix key) 0x20 := by
    cases hasSuffix key <;> decide
  rw [hheader] at hmid hsuffix hexts
  have hkey (zbf : List UInt8) : wireexprDecode (hasSuffix key) true
      (wireexprEncode (hasSuffix key) key ++ zbf) = .ok ({ key with mapping := .peer }, zbf) := by
    have hread := @wireexprDecode_fields { key with mapping := .session } h zbf
    rw [wireexprEncode, append_assoc]
    simpa [hasSuffix, receivedKey] using hread
  refine ⟨_, _, rfl, hmid, fun zbf ↦ ?_⟩
  rw [declKexprDecode, hsuffix, append_assoc, Decoder.bind_of_ok (zint16Decode_encode _ _),
    Decoder.bind_of_ok (hkey zbf), Decoder.bind_of_ok (extsDecode_none hexts zbf),
    Decoder.pure_apply]

theorem undeclKexpr_readBack (id : UInt16) :
    ReadBack (.ok (0x01 :: zint64Encode id.toUInt64)) 0x01 undeclKexprDecode
      (.undeclKexpr id) := by
  refine ⟨_, _, rfl, by decide, fun zbf ↦ ?_⟩
  rw [undeclKexprDecode, Decoder.bind_of_ok (zint16Decode_encode _ _),
    Decoder.bind_of_ok (extsDecode_none (by decide) zbf), Decoder.pure_apply]

/-- The number of a queryable holds its completeness in the lowest bit and its distance from the
ninth one on. -/
theorem queryableInfo_read (complete : Bool) (distance : UInt16) :
    decide (queryableInfo complete distance &&& 0x01 ≠ 0) = complete ∧
      (queryableInfo complete distance >>> 8).toUInt16 = distance := by
  have hlt := distance.toNat_lt
  have hshift : (distance.toUInt64 <<< 8).toNat = distance.toNat <<< 8 := by
    rw [UInt64.toNat_shiftLeft, UInt16.toNat_toUInt64]
    refine Nat.mod_eq_of_lt ?_
    change distance.toNat <<< 8 < 2 ^ 64
    rw [Nat.shiftLeft_eq]
    omega
  have hnat : (queryableInfo complete distance).toNat =
      256 * distance.toNat + if complete then 1 else 0 := by
    have hflag : (if complete then 0x01 else 0 : UInt64).toNat < 2 ^ 8 := by
      cases complete <;> decide
    rw [queryableInfo, UInt64.toNat_or, hshift, Nat.or_comm, ← Nat.shiftLeft_add_eq_or_of_lt hflag,
      Nat.shiftLeft_eq]
    cases complete <;> simp <;> omega
  constructor
  · have hbit : queryableInfo complete distance &&& 0x01 = if complete then 1 else 0 := by
      apply UInt64.toNat_inj.mp
      rw [UInt64.toNat_and, hnat]
      change _ &&& 1 = _
      rw [Nat.and_one_is_mod]
      cases complete <;> simp <;> omega
    simp only [hbit]
    cases complete <;> decide
  · apply UInt16.toNat_inj.mp
    rw [UInt64.toNat_toUInt16, UInt64.toNat_shiftRight, hnat, Nat.shiftRight_eq_div_pow]
    change _ / 2 ^ 8 % 2 ^ 16 = _
    cases complete with
    | true =>
      simp
      omega
    | false => simp

/-- The extension of a queryable -/
def queryableExt (complete : Bool) (distance : UInt16) : MsgExt :=
  ⟨0x21, .zint (queryableInfo complete distance)⟩

theorem validExt_queryable (complete : Bool) (distance : UInt16) :
    ValidExt (queryableExt complete distance) := validExt_zint (by decide) (by decide) _

theorem declQueryable_readBack (id : UInt32) (h : KeyFormed key) (complete : Bool)
    (distance : UInt16) :
    ReadBack (.ok (declQueryableEncode id key complete distance)) 0x04 declQueryableDecode
      (.declQueryable id (receivedKey key) complete distance) := by
  set hasInfoExt := complete || distance != 0 with hinfo
  have hbase : (0x04 : UInt8) &&& 0xE0 = 0 := by decide
  obtain ⟨hmid, hexts, -⟩ := keyHeader hbase h hasInfoExt
  have hchain :
      (if hasInfoExt then 0x21 :: zint64Encode (queryableInfo complete distance) else []) =
        extChainEncode (optExt hasInfoExt (queryableExt complete distance)) := by
    rw [extChainEncode_optExt_last (validExt_queryable complete distance)]
    rfl
  have htake (info : Bool × UInt16) :
      declQueryableDecodeExt (queryableExt complete distance) info = .ok (complete, distance) := by
    obtain ⟨hcomplete, hdistance⟩ := queryableInfo_read complete distance
    rw [declQueryableDecodeExt, queryableExt, if_pos rfl, MsgExtBody.val, hcomplete, hdistance]
  have hfold : (optExt hasInfoExt (queryableExt complete distance)).foldlM
      (fun context ext ↦ declQueryableDecodeExt ext context) (false, (0 : UInt16)) =
        .ok (complete, distance) :=
    foldlM_optExt_last (fun _ ↦ htake _) fun habsent ↦ by
      rw [hinfo, Bool.or_eq_false_iff, bne_eq_false_iff_eq] at habsent
      rw [habsent.1, habsent.2]
  refine ⟨_, zint64Encode id.toUInt64 ++ (wireexprEncode (hasSuffix key) key ++
    extChainEncode (optExt hasInfoExt (queryableExt complete distance))), ?_, hmid, fun zbf ↦ ?_⟩
  · rw [declQueryableEncode, declCommonsEncode, ← hchain, cons_append, append_assoc]
  rw [declQueryableDecode, append_assoc, append_assoc,
    Decoder.bind_of_ok (declCommonsDecode_encode hbase h hasInfoExt id _)]
  exact Decoder.bind_of_ok (extsDecode_chain (by rw [hexts, optExt_ne_nil])
    (forall_mem_optExt.mpr fun _ ↦ validExt_queryable complete distance) hfold zbf) _

end Declared

/-! ### All declarations -/

/-- A declaration whose key has the sizes of its codec -/
def DeclarationFormed : Declaration → Prop
  | .declKexpr _ key | .declSubscriber _ key | .declQueryable _ key _ _ | .declToken _ key =>
    KeyFormed key
  | .undeclSubscriber _ ke | .undeclQueryable _ ke | .undeclToken _ ke => ExtKeyFormed ke
  | .undeclKexpr _ | .declFinal => True

/-- A declaration, as the receiver sees it -/
def Declaration.received : Declaration → Declaration
  | .declKexpr id key => .declKexpr id { key with mapping := .peer }
  | .undeclKexpr id => .undeclKexpr id
  | .declSubscriber id key => .declSubscriber id (receivedKey key)
  | .undeclSubscriber id ke => .undeclSubscriber id (receivedExtKey ke)
  | .declQueryable id key complete distance => .declQueryable id (receivedKey key) complete distance
  | .undeclQueryable id ke => .undeclQueryable id (receivedExtKey ke)
  | .declToken id key => .declToken id (receivedKey key)
  | .undeclToken id ke => .undeclToken id (receivedExtKey ke)
  | .declFinal => .declFinal

/-- A declaration is read back as the receiver sees it. There is one case for each kind, and the
decoder goes by the id in the header. -/
theorem declaration_reads {d : Declaration} (h : DeclarationFormed d) :
    Reads (.ok (declarationEncode d)) declarationDecode d.received := by
  have hwhole {header : UInt8} (zbf : List UInt8) : declarationDecode (header :: zbf) = _ :=
    Decoder.bind_of_ok (uint8Decode_cons header zbf) _
  cases d with
  | declKexpr id key =>
    refine (declKexpr_readBack id h).reads _ fun header hmid zbf ↦ ?_
    rw [hwhole, if_pos hmid]
  | undeclKexpr id =>
    refine (undeclKexpr_readBack id).reads _ fun header hmid zbf ↦ ?_
    simp [hwhole, hmid]
  | declSubscriber id key =>
    have hread := decl_readBack (show (0x02 : UInt8) &&& 0xE0 = 0 by decide) id h
    refine (hread.map fun d ↦ Declaration.declSubscriber d.1 d.2).reads _ fun header hmid zbf ↦ ?_
    simp [hwhole, hmid]
  | undeclSubscriber id ke =>
    have hread := undecl_readBack (show (0x03 : UInt8) &&& 0xE0 = 0 by decide) id h
    refine (hread.map fun d ↦ Declaration.undeclSubscriber d.1 d.2).reads _ fun header hmid zbf ↦ ?_
    simp [hwhole, hmid]
  | declQueryable id key complete distance =>
    refine (declQueryable_readBack id h complete distance).reads _ fun header hmid zbf ↦ ?_
    simp [hwhole, hmid]
  | undeclQueryable id ke =>
    have hread := undecl_readBack (show (0x05 : UInt8) &&& 0xE0 = 0 by decide) id h
    refine (hread.map fun d ↦ Declaration.undeclQueryable d.1 d.2).reads _ fun header hmid zbf ↦ ?_
    simp [hwhole, hmid]
  | declToken id key =>
    have hread := decl_readBack (show (0x06 : UInt8) &&& 0xE0 = 0 by decide) id h
    refine (hread.map fun d ↦ Declaration.declToken d.1 d.2).reads _ fun header hmid zbf ↦ ?_
    simp [hwhole, hmid]
  | undeclToken id ke =>
    have hread := undecl_readBack (show (0x07 : UInt8) &&& 0xE0 = 0 by decide) id h
    refine (hread.map fun d ↦ Declaration.undeclToken d.1 d.2).reads _ fun header hmid zbf ↦ ?_
    simp [hwhole, hmid]
  | declFinal => exact ⟨[0x1A], rfl, fun zbf ↦ rfl⟩

end ZenohPico.Network
