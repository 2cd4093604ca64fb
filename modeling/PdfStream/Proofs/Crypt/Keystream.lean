import PdfStream.Proofs.Codec

/-!
Sessions under RC4. Both directions add the keystream of the key to the data, each byte the one for
its place. The keystream goes on from block to block, so that its bytes fall on the same places
however the data are cut, and adding it twice leaves the data as they were.
-/
namespace PdfStream.Crypt

section
variable {ctx ctx' : CryptoContext} {c c' : Crypt} {parms : Option DecodeParms}

theorem session_encode_rc4 (hctx : ctx.IsLive) (hrc4 : c.cipher = .rc4)
    (hkey : CipherKind.rc4.AcceptsKeyLength c.key.length) (blocks : List Bytes) :
    ((Codec.crypt c).session .encode ctx none blocks).output? =
      some (Rc4.addStream (Rc4.scheduled c.key).keystream blocks.flatten) := by
  rw [c.encode_makes ctx none blocks, encodes_rc4 hctx hrc4 hkey, Rc4.mask_eq_addStream]

theorem session_decode_rc4 (hctx : ctx.IsLive) (hparms : c.decodeCipher parms = .ok .rc4)
    (hkey : CipherKind.rc4.AcceptsKeyLength c.key.length) (blocks : List Bytes) :
    ((Codec.crypt c).session .decode ctx parms blocks).output? =
      some (Rc4.addStream (Rc4.scheduled c.key).keystream blocks.flatten) := by
  rw [c.decode_makes ctx parms blocks, decodes_rc4 hctx hparms hkey, Rc4.mask_eq_addStream]

end

/-- A key of 1 to 256 bytes sets up a permutation of the byte values, which stays one with every byte
of the keystream. Calls of any sizes add that keystream to the data and leave the state behind as many
bytes of it. A session under RC4 does the same in whatever blocks, so that what it writes has the
length of the data, and another session under the key makes the data of it again. -/
theorem session_adds_keystream {key : Bytes} (hkey : 1 ≤ key.length ∧ key.length ≤ 256) :
    Rc4.ofKey key = .ok (Rc4.scheduled key) ∧
    (∀ n, Rc4.IsPermutation (Rc4.advance^[n] (Rc4.scheduled key)).perm) ∧
    (∀ calls : List Bytes, (Rc4.scheduled key).processAll calls =
      (Rc4.advance^[calls.flatten.length] (Rc4.scheduled key),
        Rc4.addStream (Rc4.scheduled key).keystream calls.flatten)) ∧
    ∀ (c c' : Crypt) (ctx ctx' : CryptoContext) (parms : Option DecodeParms),
      c.cipher = .rc4 → c.key = key → c'.decodeCipher parms = .ok .rc4 → c'.key = key →
      ctx.IsLive → ctx'.IsLive → ∀ blocks : List Bytes,
        ∃ out, ((Codec.crypt c).session .encode ctx none blocks).output? = some out ∧
          out = Rc4.addStream (Rc4.scheduled key).keystream blocks.flatten ∧
          out.length = blocks.flatten.length ∧
          ∀ blocks' : List Bytes, blocks'.flatten = out →
            ((Codec.crypt c').session .decode ctx' parms blocks').output? =
              some blocks.flatten := by
  refine ⟨Rc4.ofKey_eq hkey, Rc4.isPermutation_iterate_advance (Rc4.isPermutation_scheduled key),
    Rc4.processAll_eq _, ?_⟩
  rintro c c' ctx ctx' parms hrc4 rfl hparms hsame hctx hctx' blocks
  refine ⟨_, session_encode_rc4 hctx hrc4 hkey blocks, rfl, List.length_mapIdx, ?_⟩
  intro blocks' hblocks'
  have hkey' : CipherKind.rc4.AcceptsKeyLength c'.key.length := by rwa [hsame]
  rw [session_decode_rc4 hctx' hparms hkey', hsame, hblocks', Rc4.addStream_addStream]

theorem session_adds_keystream_three :
    (1 ≤ ([0x4B, 0x65, 0x79] : Bytes).length ∧ ([0x4B, 0x65, 0x79] : Bytes).length ≤ 256) ∧
    ∃ out, ((Codec.crypt { cipher := .rc4, key := [0x4B, 0x65, 0x79] }).session .encode {} none
        [[0x50, 0x6C], [], [0x61, 0x69, 0x6E]]).output? = some out ∧ out.length = 5 ∧
      ∀ blocks' : List Bytes, blocks'.flatten = out →
        ((Codec.crypt { cipher := .rc4, key := [0x4B, 0x65, 0x79] }).session .decode {} none
          blocks').output? = some [0x50, 0x6C, 0x61, 0x69, 0x6E] := by
  have hkey : 1 ≤ ([0x4B, 0x65, 0x79] : Bytes).length ∧
      ([0x4B, 0x65, 0x79] : Bytes).length ≤ 256 := by decide
  have hlive : CryptoContext.IsLive {} := rfl
  obtain ⟨-, -, -, hsessions⟩ := session_adds_keystream hkey
  obtain ⟨out, hout, -, hlength, hback⟩ :=
    hsessions { cipher := .rc4, key := [0x4B, 0x65, 0x79] }
      { cipher := .rc4, key := [0x4B, 0x65, 0x79] } {} {} none rfl rfl rfl rfl hlive hlive
      [[0x50, 0x6C], [], [0x61, 0x69, 0x6E]]
  exact ⟨hkey, out, hout, hlength, hback⟩

end PdfStream.Crypt
