import CppLaravel.WebSocket.Frame

/-!
# `CppLaravel.Proofs.WebSocket.Wire`: frames on the wire

A `WireFrame` is a frame as a peer sends it: the FIN bit, an opcode, a payload, one of the
three forms of the length field that has room for the payload's length, and a masking key or
none. `WireFrame.bytes` is its encoding.

* `parseFrame_bytes_append`: the parser takes an encoded frame off the front of a buffer,
  with exactly its own bytes.
* `parseFrame_of_prefix`: on every shorter prefix of the encoding it waits for more.

Both hold for every payload up to the cap and up to `2 ^ 63` bytes.
-/

set_option autoImplicit false

namespace CppLaravel.WebSocket

open CppLaravel.Lib

/-- A masking key. -/
structure MaskKey where
  (b0 b1 b2 b3 : UInt8)

/-- The bytes of the key. -/
def MaskKey.bytes (k : MaskKey) : Bytes := [k.b0, k.b1, k.b2, k.b3]

/-- The forms of the length field: 7 bits, or 16 or 64 bits behind a marker. -/
inductive LengthForm
  | short
  | medium
  | long

/-- The length has room in the field. -/
def LengthForm.Fits : LengthForm → Nat → Prop
  | .short, n => n < 126
  | .medium, n => n < 256 ^ 2
  | .long, n => n < 256 ^ 8

/-- The low seven bits of the second byte. -/
def LengthForm.code : LengthForm → Nat → Nat
  | .short, n => n
  | .medium, _ => 126
  | .long, _ => 127

/-- The bytes of the length behind the second byte. -/
def LengthForm.extension : LengthForm → Nat → Bytes
  | .short, _ => []
  | .medium, n => toBigEndian 2 n
  | .long, n => toBigEndian 8 n

/-- The code of an opcode. -/
def Opcode.code : Opcode → UInt8
  | .continuation => 0x0
  | .text => 0x1
  | .binary => 0x2
  | .close => 0x8
  | .ping => 0x9
  | .pong => 0xA
  | .unnamed code => code

/-- A frame as it is sent. -/
structure WireFrame where
  fin : Bool
  opcode : Opcode
  named : ∀ code, opcode ≠ .unnamed code
  payload : Bytes
  form : LengthForm
  fits : form.Fits payload.length
  key : Option MaskKey

namespace WireFrame

/-- The FIN bit and the opcode. -/
def first (f : WireFrame) : UInt8 := (if f.fin then 0x80 else 0) ||| f.opcode.code

/-- The mask bit and the length or its marker. -/
def second (f : WireFrame) : UInt8 :=
  (if f.key.isSome then 0x80 else 0) ||| UInt8.ofNat (f.form.code f.payload.length)

/-- The rest of the length field. -/
def extension (f : WireFrame) : Bytes := f.form.extension f.payload.length

/-- The masking key, if there is one. -/
def keyBytes (f : WireFrame) : Bytes := (f.key.map MaskKey.bytes).getD []

/-- The payload, masked if there is a key. -/
def body (f : WireFrame) : Bytes :=
  match f.key with
  | none => f.payload
  | some k => applyMask k.bytes f.payload

/-- The encoding of the frame. -/
def bytes (f : WireFrame) : Bytes :=
  f.first :: f.second :: (f.extension ++ (f.keyBytes ++ f.body))

/-- What `parseFrame` makes of the frame. -/
def parsed (f : WireFrame) : Frame where
  opcode := f.opcode
  payload := f.payload
  fin := f.fin
  masked := f.key.isSome
  ok := true
  consumed := f.bytes.length

end WireFrame

/-! ### The header -/

theorem fin_first (f : WireFrame) : decide (f.first &&& 0x80 ≠ 0) = f.fin := by
  rw [WireFrame.first]
  cases hfin : f.fin <;> cases hop : f.opcode with
  | unnamed code => exact absurd hop (f.named code)
  | _ => decide

theorem opcode_first (f : WireFrame) : Opcode.ofByte f.first = f.opcode := by
  rw [WireFrame.first]
  cases hfin : f.fin <;> cases hop : f.opcode with
  | unnamed code => exact absurd hop (f.named code)
  | _ => decide

/-- A seven-bit number and the high bit do not disturb each other. -/
theorem highBit_or (masked : Bool) (n : Fin 128) :
    decide (((if masked then 0x80 else 0) ||| UInt8.ofNat n.val) &&& 0x80 ≠ 0) = masked ∧
      (((if masked then 0x80 else 0) ||| UInt8.ofNat n.val) &&& 0x7F).toNat = n.val := by
  revert masked n
  decide

theorem code_lt (f : WireFrame) : f.form.code f.payload.length < 128 := by
  have hfits := f.fits
  cases hform : f.form with
  | short =>
    rw [hform] at hfits
    exact Nat.lt_trans hfits (by omega)
  | medium => show 126 < 128; omega
  | long => show 127 < 128; omega

theorem masked_second (f : WireFrame) : decide (f.second &&& 0x80 ≠ 0) = f.key.isSome :=
  (highBit_or f.key.isSome ⟨_, code_lt f⟩).1

theorem code_second (f : WireFrame) :
    (f.second &&& 0x7F).toNat = f.form.code f.payload.length :=
  (highBit_or f.key.isSome ⟨_, code_lt f⟩).2

theorem length_extension_le (f : WireFrame) : f.extension.length ≤ 8 := by
  rw [WireFrame.extension]
  cases f.form with
  | short => exact Nat.zero_le 8
  | medium => rw [LengthForm.extension, length_toBigEndian]; omega
  | long => rw [LengthForm.extension, length_toBigEndian]

/-- The parser waits for the length field. -/
theorem declaredLength_of_short (f : WireFrame) {p : Bytes} (hp : 2 ≤ p.length)
    (hshort : p.length < 2 + f.extension.length) : declaredLength p f.second = none := by
  have hcode := code_second f
  rw [WireFrame.extension] at hshort
  cases hform : f.form with
  | short =>
    rw [hform] at hshort
    have hlt : p.length < 2 + 0 := hshort
    omega
  | medium =>
    rw [hform, LengthForm.extension, length_toBigEndian] at hshort
    rw [hform] at hcode
    rw [declaredLength_of_eq_126 p hcode, if_pos hshort]
  | long =>
    rw [hform, LengthForm.extension, length_toBigEndian] at hshort
    rw [hform] at hcode
    rw [declaredLength_of_eq_127 p hcode, if_pos hshort]

/-- The parser reads the length field. -/
theorem declaredLength_of_header (f : WireFrame) (a b : UInt8) (rest : Bytes) :
    declaredLength (a :: b :: (f.extension ++ rest)) f.second =
      some (f.payload.length, 2 + f.extension.length) := by
  have hcode := code_second f
  have hfits := f.fits
  -- The digits stand right behind the first two bytes.
  have hread : ∀ k, ((a :: b :: (toBigEndian k f.payload.length ++ rest)).drop 2).take k =
      toBigEndian k f.payload.length := by
    intro k
    rw [List.drop_succ_cons, List.drop_succ_cons, List.drop_zero]
    exact List.take_left' (length_toBigEndian k _)
  have hlen : ∀ k, ¬ (a :: b :: (toBigEndian k f.payload.length ++ rest)).length < 2 + k := by
    intro k
    rw [List.length_cons, List.length_cons, List.length_append, length_toBigEndian]
    omega
  rw [WireFrame.extension]
  cases hform : f.form with
  | short =>
    rw [hform] at hcode hfits
    have hcode : (f.second &&& 0x7F).toNat = f.payload.length := hcode
    have hlt : f.payload.length < 126 := hfits
    rw [declaredLength_of_lt _ (by omega), hcode]
    rfl
  | medium =>
    rw [hform] at hcode hfits
    rw [declaredLength_of_eq_126 _ hcode, LengthForm.extension, if_neg (hlen 2), hread,
      bigEndian_toBigEndian hfits, length_toBigEndian]
  | long =>
    rw [hform] at hcode hfits
    rw [declaredLength_of_eq_127 _ hcode, LengthForm.extension, if_neg (hlen 8), hread,
      bigEndian_toBigEndian hfits, length_toBigEndian]

/-! ### The payload -/

@[simp] theorem length_applyMask (mask payload : Bytes) :
    (applyMask mask payload).length = payload.length := by
  rw [applyMask, List.length_mapIdx]

/-- A mask applied twice is no mask. -/
theorem applyMask_applyMask (mask payload : Bytes) :
    applyMask mask (applyMask mask payload) = payload := by
  apply List.ext_getElem
  · rw [length_applyMask, length_applyMask]
  · intro i h₁ h₂
    simp only [applyMask, List.getElem_mapIdx]
    rw [UInt8.xor_assoc, UInt8.xor_self, UInt8.xor_zero]

theorem length_body (f : WireFrame) : f.body.length = f.payload.length := by
  rw [WireFrame.body]
  split
  · rfl
  · exact length_applyMask _ _

theorem length_keyBytes (f : WireFrame) :
    f.keyBytes.length = if f.key.isSome then 4 else 0 := by
  rw [WireFrame.keyBytes]
  cases f.key <;> rfl

theorem length_bytes (f : WireFrame) :
    f.bytes.length = 2 + f.extension.length + (if f.key.isSome then 4 else 0) +
      f.payload.length := by
  rw [WireFrame.bytes, List.length_cons, List.length_cons, List.length_append,
    List.length_append, length_keyBytes, length_body]
  omega

/-- Behind the header stands the rest of the frame. -/
theorem drop_header (f : WireFrame) (a b : UInt8) (r : Bytes) :
    (a :: b :: (f.extension ++ r)).drop (2 + f.extension.length) = r := by
  rw [Nat.add_comm, List.drop_succ_cons, List.drop_succ_cons]
  exact List.drop_left

/-! ### The parser on an encoded frame -/

/-- The payload is read once it has arrived. -/
theorem parsePayload_of_body {f : WireFrame} {g : Frame} {buf mask : Bytes} {i : Nat}
    {r : Bytes} (hi : i ≤ 14) (hmax : f.payload.length ≤ 2 ^ 63)
    (hbuf : buf.length = i + f.payload.length + r.length) (hdrop : buf.drop i = f.body ++ r)
    (hunmask : (if g.masked then applyMask mask f.body else f.body) = f.payload) :
    parsePayload g buf mask i f.payload.length =
      some { g with payload := f.payload, consumed := i + f.payload.length, ok := true } := by
  have hsum : (i + f.payload.length) % 2 ^ 64 = i + f.payload.length :=
    Nat.mod_eq_of_lt (by omega)
  have htake : (buf.drop i).take f.payload.length = f.body := by
    rw [hdrop]
    exact List.take_left' (length_body f)
  simp only [parsePayload, hsum, htake, hunmask]
  rw [if_neg (by omega), if_neg (by omega)]

/-- The payload is waited for until then. -/
theorem parsePayload_of_short {g : Frame} {buf mask : Bytes} {i len : Nat} (hi : i ≤ 14)
    (hmax : len ≤ 2 ^ 63) (hbuf : buf.length < i + len) :
    parsePayload g buf mask i len = some g := by
  have hsum : (i + len) % 2 ^ 64 = i + len := Nat.mod_eq_of_lt (by omega)
  simp only [parsePayload, hsum]
  rw [if_pos hbuf]

/-- **The parser takes the frame off the front of a buffer.** -/
theorem parseFrame_bytes_append (f : WireFrame) {cap : Nat} (hcap : f.payload.length ≤ cap)
    (hmax : f.payload.length ≤ 2 ^ 63) (r : Bytes) :
    parseFrame (f.bytes ++ r) cap = some f.parsed := by
  have hlen := length_bytes f
  have hext := length_extension_le f
  have hbytes : f.bytes ++ r =
      f.first :: f.second :: (f.extension ++ (f.keyBytes ++ f.body ++ r)) := by
    rw [WireFrame.bytes, List.cons_append, List.cons_append, List.append_assoc]
  have hbuf := congrArg List.length hbytes
  rw [List.length_append] at hbuf
  have hdrop := drop_header f f.first f.second (f.keyBytes ++ f.body ++ r)
  rw [hbytes]
  simp only [parseFrame]
  rw [declaredLength_of_header, fin_first, opcode_first, masked_second]
  dsimp only
  rw [if_neg (by omega), ← hbytes]
  rw [← hbytes] at hdrop
  -- With a key four more bytes stand before the payload, which is unmasked again.
  cases hkey : f.key with
  | none =>
    rw [hkey] at hlen
    have hbody : f.body = f.payload := by rw [WireFrame.body, hkey]
    have hkeyBytes : f.keyBytes = [] := by rw [WireFrame.keyBytes, hkey]; rfl
    rw [hkeyBytes, List.nil_append] at hdrop
    rw [if_neg (by exact Bool.false_ne_true)]
    rw [parsePayload_of_body (r := r) (by omega) hmax ?_ hdrop ?_]
    · rw [WireFrame.parsed, hlen, hkey]
      rfl
    · rw [List.length_append, hlen]
      rfl
    · exact hbody
  | some k =>
    rw [hkey] at hlen
    have hbody : applyMask k.bytes f.body = f.payload := by
      rw [WireFrame.body, hkey]
      exact applyMask_applyMask _ _
    have hkeyBytes : f.keyBytes = k.bytes := by rw [WireFrame.keyBytes, hkey]; rfl
    rw [hkeyBytes, List.append_assoc] at hdrop
    have hmask : ((f.bytes ++ r).drop (2 + f.extension.length)).take 4 = k.bytes := by
      rw [hdrop]
      rfl
    have hrest : (f.bytes ++ r).drop (2 + f.extension.length + 4) = f.body ++ r := by
      rw [← List.drop_drop, hdrop]
      rfl
    have hlong : (f.bytes ++ r).length
        = 2 + f.extension.length + 4 + f.payload.length + r.length := by
      rw [List.length_append, hlen]
      rfl
    rw [if_pos (by rfl), if_neg (by omega), hmask]
    rw [parsePayload_of_body (r := r) (by omega) hmax hlong hrest ?_]
    · rw [WireFrame.parsed, hlen, hkey]
      rfl
    · exact hbody

/-- A prefix of the encoding that is longer than the header begins with the header. -/
theorem header_of_prefix {f : WireFrame} {a b : UInt8} {q : Bytes}
    (hp : a :: b :: q <+: f.bytes) (hlen : f.extension.length ≤ q.length) :
    ∃ r, q = f.extension ++ r := by
  rw [WireFrame.bytes, List.cons_prefix_cons, List.cons_prefix_cons] at hp
  obtain ⟨r, hr⟩ := List.prefix_of_prefix_length_le (List.prefix_append f.extension _) hp.2.2 hlen
  exact ⟨r, hr.symm⟩

/-- **The parser waits for the rest of a frame.** -/
theorem parseFrame_of_prefix (f : WireFrame) {cap : Nat} (hcap : f.payload.length ≤ cap)
    (hmax : f.payload.length ≤ 2 ^ 63) {p : Bytes} (hp : p <+: f.bytes)
    (hlt : p.length < f.bytes.length) :
    ∃ g, parseFrame p cap = some g ∧ g.ok = false ∧ g.tooBig = false := by
  have hext := length_extension_le f
  match p, hp, hlt with
  -- Two bytes are waited for, then the length field, the key and the payload.
  | [], _, _ => exact ⟨_, rfl, rfl, rfl⟩
  | [_], _, _ => exact ⟨_, rfl, rfl, rfl⟩
  | a :: b :: q, hp, hlt =>
    have hpre := hp
    rw [WireFrame.bytes, List.cons_prefix_cons, List.cons_prefix_cons] at hpre
    obtain ⟨rfl, rfl, -⟩ := hpre
    rw [length_bytes, List.length_cons, List.length_cons] at hlt
    simp only [parseFrame]
    rw [fin_first, opcode_first, masked_second]
    by_cases hheader : f.extension.length ≤ q.length
    · obtain ⟨r, rfl⟩ := header_of_prefix hp hheader
      rw [declaredLength_of_header]
      dsimp only
      rw [if_neg (by omega)]
      rw [List.length_append] at hlt
      cases hkey : f.key with
      | none =>
        rw [hkey] at hlt
        have hshort : (f.first :: f.second :: (f.extension ++ r)).length <
            2 + f.extension.length + f.payload.length := by
          rw [List.length_cons, List.length_cons, List.length_append]
          have hlt : f.extension.length + r.length + 1 + 1 < 2 + f.extension.length + 0 +
            f.payload.length := hlt
          omega
        rw [if_neg (by exact Bool.false_ne_true),
          parsePayload_of_short (by omega) hmax hshort]
        exact ⟨_, rfl, rfl, rfl⟩
      | some k =>
        rw [hkey] at hlt
        rw [if_pos (by rfl)]
        by_cases hmask : (f.first :: f.second :: (f.extension ++ r)).length <
            2 + f.extension.length + 4
        · -- The key has not arrived.
          rw [if_pos hmask]
          exact ⟨_, rfl, rfl, rfl⟩
        · have hshort : (f.first :: f.second :: (f.extension ++ r)).length <
              2 + f.extension.length + 4 + f.payload.length := by
            rw [List.length_cons, List.length_cons, List.length_append]
            have hlt : f.extension.length + r.length + 1 + 1 < 2 + f.extension.length + 4 +
              f.payload.length := hlt
            omega
          rw [if_neg hmask, parsePayload_of_short (by omega) hmax hshort]
          exact ⟨_, rfl, rfl, rfl⟩
    · -- The length field itself has not arrived.
      have hshort : (f.first :: f.second :: q).length < 2 + f.extension.length := by
        rw [List.length_cons, List.length_cons]
        omega
      rw [declaredLength_of_short f (by simp) hshort]
      exact ⟨_, rfl, rfl, rfl⟩

end CppLaravel.WebSocket
