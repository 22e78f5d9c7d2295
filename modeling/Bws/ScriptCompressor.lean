import Bws.Recover
import Bws.Script
import Bws.VarInt

/-!
# The compact form of a script

`CScriptCompressor` writes the scripts that pay to a key, to the hash of a key or to the hash of a
script in 21 or 33 bytes, and every other one after its size.  The first byte of the six special
forms is a number below six, and six is added to the size of the others, so that the reader can
tell them apart.  The size is an `unsigned int`: a script is read back exactly where it has at most
`2 ^ 32 - 7` bytes (`CScriptCompressor.restores_iff`).

What OpenSSL makes of a public key is a parameter.
-/

namespace Bws

structure PubKeyOps where
  /-- `CPubKey::IsFullyValid` -/
  isFullyValid : CPubKey → Bool
  /-- `CPubKey::Decompress`, and the key that it leaves -/
  decompress : CPubKey → Option CPubKey

/-- A key that is fully valid can be compressed: its second coordinate follows from the first one
and from whether it is even. -/
structure PubKeyOps.Lawful (K : PubKeyOps) : Prop where
  decompress_eq {x y : List UInt8} (hx : x.length = 32) (hy : y.length = 32)
    (h : K.isFullyValid (0x04 :: (x ++ y)) = true) :
    K.decompress ((if y.getD 31 0 &&& 0x01 = 0 then 0x02 else 0x03) :: x) = some (0x04 :: (x ++ y))

namespace CScriptCompressor

/-! ## The source -/

def nSpecialScripts : ℕ := 6

/-- `IsToKeyID`, and the hash that it finds -/
def isToKeyID (script : CScript) : Option (List UInt8) :=
  if script.length = 25 ∧ script[0]? = some OP_DUP ∧ script[1]? = some OP_HASH160 ∧
      script[2]? = some 20 ∧ script[23]? = some OP_EQUALVERIFY ∧ script[24]? = some OP_CHECKSIG then
    some ((script.drop 3).take 20)
  else none

def isToScriptID (script : CScript) : Option (List UInt8) :=
  if script.length = 23 ∧ script[0]? = some OP_HASH160 ∧ script[1]? = some 20 ∧
      script[22]? = some OP_EQUAL then
    some ((script.drop 2).take 20)
  else none

section

variable (K : PubKeyOps)

def isToPubKey (script : CScript) : Option CPubKey :=
  if script.length = 35 ∧ script[0]? = some 33 ∧ script[34]? = some OP_CHECKSIG ∧
      (script[1]? = some 0x02 ∨ script[1]? = some 0x03) then
    some (CPubKey.set ((script.drop 1).take 33))
  else if script.length = 67 ∧ script[0]? = some 65 ∧ script[66]? = some OP_CHECKSIG ∧
      script[1]? = some 0x04 then
    -- if not fully valid, a case that would not be compressible
    some (CPubKey.set ((script.drop 1).take 65)) |>.filter K.isFullyValid
  else none

/-- `Compress`, and what it leaves in `out` where it succeeds -/
def compress (script : CScript) : Option (List UInt8) :=
  match isToKeyID script with
  | some keyID => some (0x00 :: keyID)
  | none =>
    match isToScriptID script with
    | some scriptID => some (0x01 :: scriptID)
    | none =>
      match isToPubKey K script with
      | some pubkey =>
        let chHeader := pubkey.headD 0xFF
        if chHeader = 0x02 ∨ chHeader = 0x03 then some (chHeader :: (pubkey.drop 1).take 32)
        else if chHeader = 0x04 then
          some ((0x04 ||| (pubkey.getD 64 0 &&& 0x01)) :: (pubkey.drop 1).take 32)
        else none
      | none => none

def getSpecialSize (nSize : ℕ) : ℕ :=
  if nSize = 0 ∨ nSize = 1 then 20
  else if nSize = 2 ∨ nSize = 3 ∨ nSize = 4 ∨ nSize = 5 then 32
  else 0

/-- `Decompress`: the script that it leaves, and what it returns -/
def decompress (nSize : ℕ) (input : List UInt8) (script : CScript) : CScript × Bool :=
  match nSize with
  | 0x00 => ([OP_DUP, OP_HASH160, 20] ++ input.take 20 ++ [OP_EQUALVERIFY, OP_CHECKSIG], true)
  | 0x01 => ([OP_HASH160, 20] ++ input.take 20 ++ [OP_EQUAL], true)
  | 0x02 | 0x03 => ([33, UInt8.ofNat nSize] ++ input.take 32 ++ [OP_CHECKSIG], true)
  | 0x04 | 0x05 =>
    match K.decompress (CPubKey.set (UInt8.ofNat (nSize - 2) :: input.take 32)) with
    | some pubkey => ([65] ++ pubkey ++ [OP_CHECKSIG], true)
    | none => (script, false)
  | _ => (script, false)

def getSerializeSize (script : CScript) : ℕ :=
  match compress K script with
  | some compr => compr.length
  | none =>
    let nSize := (script.length + nSpecialScripts) % 2 ^ 32
    (script.length + getSizeOfVarInt nSize) % 2 ^ 32

def serialize (script : CScript) : List UInt8 :=
  match compress K script with
  | some compr => compr
  | none =>
    let nSize := (script.length + nSpecialScripts) % 2 ^ 32
    writeVarInt nSize ++ script

/-- `Unserialize` into `script`, and what follows in the stream -/
def unserialize (script : CScript) (s : List UInt8) : Option (CScript × List UInt8) :=
  (readVarInt 32 s).bind fun (nSize, s) ↦
    if nSize < nSpecialScripts then
      ((Codec.raw (getSpecialSize nSize)).get s).map fun (vch, s) ↦
        ((decompress K nSize vch script).1, s)
    else (Codec.raw (nSize - nSpecialScripts)).get s

end

/-! ## The special forms -/

section

variable {K : PubKeyOps} {script stale : CScript} {rest compr : List UInt8}

theorem drop_eq_cons {l : List UInt8} {n : ℕ} {b : UInt8} (h : l[n]? = some b) :
    l.drop n = b :: l.drop (n + 1) := by
  obtain ⟨hn, rfl⟩ := List.getElem?_eq_some_iff.1 h
  exact List.drop_eq_getElem_cons hn

/-- The middle of a script, and the end from there on. -/
theorem drop_eq_take_append (l : List UInt8) (n k : ℕ) :
    l.drop n = (l.drop n).take k ++ l.drop (n + k) := by
  rw [← List.drop_drop, List.take_append_drop]

theorem length_take_drop {l : List UInt8} {n k : ℕ} (h : n + k ≤ l.length) :
    ((l.drop n).take k).length = k := by
  rw [List.length_take, List.length_drop]
  omega

theorem eq_of_isToKeyID {keyID : List UInt8} (h : isToKeyID script = some keyID) :
    keyID.length = 20 ∧
      script = [OP_DUP, OP_HASH160, 20] ++ keyID ++ [OP_EQUALVERIFY, OP_CHECKSIG] := by
  rw [isToKeyID, Option.ite_none_right_eq_some] at h
  obtain ⟨⟨hlen, h₀, h₁, h₂, h₂₃, h₂₄⟩, hkey⟩ := h
  obtain rfl := Option.some.inj hkey
  refine ⟨length_take_drop (by omega), ?_⟩
  conv_lhs => rw [← List.drop_zero (l := script), drop_eq_cons h₀, drop_eq_cons h₁, drop_eq_cons h₂,
    drop_eq_take_append script 3 20, drop_eq_cons h₂₃, drop_eq_cons h₂₄,
    List.drop_of_length_le hlen.le]
  simp

theorem eq_of_isToScriptID {scriptID : List UInt8} (h : isToScriptID script = some scriptID) :
    scriptID.length = 20 ∧ script = [OP_HASH160, 20] ++ scriptID ++ [OP_EQUAL] := by
  rw [isToScriptID, Option.ite_none_right_eq_some] at h
  obtain ⟨⟨hlen, h₀, h₁, h₂₂⟩, hscript⟩ := h
  obtain rfl := Option.some.inj hscript
  refine ⟨length_take_drop (by omega), ?_⟩
  conv_lhs => rw [← List.drop_zero (l := script), drop_eq_cons h₀, drop_eq_cons h₁,
    drop_eq_take_append script 2 20, drop_eq_cons h₂₂, List.drop_of_length_le hlen.le]
  simp

/-- The key of a script is compressed, or it is fully valid. -/
theorem eq_of_isToPubKey {pubkey : CPubKey} (h : isToPubKey K script = some pubkey) :
    (∃ b x, (b = 0x02 ∨ b = 0x03) ∧ x.length = 32 ∧ pubkey = b :: x ∧
      script = [33, b] ++ x ++ [OP_CHECKSIG]) ∨
    ∃ x y, x.length = 32 ∧ y.length = 32 ∧ pubkey = 0x04 :: (x ++ y) ∧
      K.isFullyValid pubkey = true ∧ script = [65] ++ pubkey ++ [OP_CHECKSIG] := by
  rw [isToPubKey] at h
  split_ifs at h with hshort hlong
  · obtain ⟨hlen, h₀, h₃₄, h₁⟩ := hshort
    obtain ⟨b, hb, hbyte⟩ : ∃ b, (b = 0x02 ∨ b = 0x03) ∧ script[1]? = some b :=
      h₁.elim (fun h ↦ ⟨_, .inl rfl, h⟩) fun h ↦ ⟨_, .inr rfl, h⟩
    have hkey : (script.drop 1).take 33 = b :: (script.drop 2).take 32 := by
      rw [drop_eq_cons hbyte, List.take_succ_cons]
    have hsize : ((script.drop 2).take 32).length = 32 := length_take_drop (by omega)
    refine .inl ⟨b, (script.drop 2).take 32, hb, hsize, ?_, ?_⟩
    · obtain rfl := Option.some.inj h
      rw [hkey, CPubKey.set, CPubKey.getLen, if_pos hb, List.length_cons, hsize, if_pos rfl]
    · conv_lhs => rw [← List.drop_zero (l := script), drop_eq_cons h₀, drop_eq_cons hbyte,
        drop_eq_take_append script 2 32, drop_eq_cons h₃₄, List.drop_of_length_le hlen.le]
      simp
  · obtain ⟨hlen, h₀, h₆₆, h₁⟩ := hlong
    obtain ⟨hkey, hvalid⟩ := Option.filter_eq_some_iff.1 h
    obtain rfl := Option.some.inj hkey
    have hsplit : (script.drop 2).take 64 =
        (script.drop 2).take 32 ++ (script.drop 34).take 32 := by
      rw [List.take_add (i := 32) (j := 32), List.drop_drop]
    have hset : CPubKey.set ((script.drop 1).take 65) =
        0x04 :: ((script.drop 2).take 32 ++ (script.drop 34).take 32) := by
      rw [drop_eq_cons h₁, List.take_succ_cons, hsplit, CPubKey.set, List.length_cons,
        List.length_append, length_take_drop (by omega), length_take_drop (by omega)]
      exact if_pos rfl
    refine .inr ⟨_, _, length_take_drop (by omega), length_take_drop (by omega), hset, hvalid, ?_⟩
    rw [hset, ← hsplit]
    conv_lhs => rw [← List.drop_zero (l := script), drop_eq_cons h₀, drop_eq_cons h₁,
      drop_eq_take_append script 2 64, drop_eq_cons h₆₆, List.drop_of_length_le hlen.le]
    simp

/-! ## Writing and reading -/

theorem unserialize_of_readVarInt {nSize : ℕ} {s s' : List UInt8}
    (h : readVarInt 32 s = some (nSize, s')) : unserialize K stale s =
      if nSize < nSpecialScripts then
        ((Codec.raw (getSpecialSize nSize)).get s').map fun r ↦
          ((decompress K nSize r.1 stale).1, r.2)
      else (Codec.raw (nSize - nSpecialScripts)).get s' := by
  rw [unserialize, h]
  rfl

/-- The first byte of a special form is its number. -/
theorem unserialize_special {b : UInt8} {s : List UInt8} (hb : b.toNat < nSpecialScripts) :
    unserialize K stale (b :: s) =
      ((Codec.raw (getSpecialSize b.toNat)).get s).map fun r ↦
        ((decompress K b.toNat r.1 stale).1, r.2) := by
  have hbyte : b < 0x80 := UInt8.lt_iff_toNat_lt.2 (hb.trans (by decide))
  have hread : readVarInt 32 ([b] ++ s) = some (varIntValue [b] % 2 ^ 32, s) :=
    readVarInt_append (by decide) (.last hbyte)
  have hvalue : varIntValue [b] % 2 ^ 32 = b.toNat := by
    have := b.toNat_lt
    rw [varIntValue_singleton, varIntDigit]
    rw [nSpecialScripts] at hb
    omega
  rw [List.singleton_append, hvalue] at hread
  rw [unserialize_of_readVarInt hread, if_pos hb]

theorem get_raw_append {n : ℕ} {vch : List UInt8} (h : vch.length = n) (s : List UInt8) :
    (Codec.raw n).get (vch ++ s) = some (vch, s) := (Codec.raw n).get_put h s

theorem low_bit (b : UInt8) : b &&& 0x01 = 0 ∨ b &&& 0x01 = 1 := by
  rw [← UInt8.toNat_inj, ← UInt8.toNat_inj, UInt8.toNat_and]
  show b.toNat &&& 2 ^ 1 - 1 = 0 ∨ b.toNat &&& 2 ^ 1 - 1 = 1
  rw [Nat.and_two_pow_sub_one_eq_mod]
  omega

/-- Reading a special form, given what `Decompress` makes of its bytes. -/
theorem unserialize_form (nSize : ℕ) {b : UInt8} {vch : List UInt8} (hb : b.toNat = nSize)
    (hspecial : nSize < nSpecialScripts) (hvch : vch.length = getSpecialSize nSize)
    (hdec : (decompress K nSize vch stale).1 = script) :
    unserialize K stale (b :: vch ++ rest) = some (script, rest) := by
  subst hb
  rw [List.cons_append, unserialize_special hspecial, get_raw_append hvch, Option.map_some, hdec]

theorem unserialize_keyID {keyID : List UInt8} (h : keyID.length = 20) :
    unserialize K stale (0x00 :: keyID ++ rest) =
      some ([OP_DUP, OP_HASH160, 20] ++ keyID ++ [OP_EQUALVERIFY, OP_CHECKSIG], rest) := by
  refine unserialize_form 0 rfl (by decide) h ?_
  rw [decompress, List.take_of_length_le h.le]

theorem unserialize_scriptID {scriptID : List UInt8} (h : scriptID.length = 20) :
    unserialize K stale (0x01 :: scriptID ++ rest) =
      some ([OP_HASH160, 20] ++ scriptID ++ [OP_EQUAL], rest) := by
  refine unserialize_form 1 rfl (by decide) h ?_
  rw [decompress, List.take_of_length_le h.le]

theorem unserialize_compressed {b : UInt8} {x : List UInt8} (hb : b = 0x02 ∨ b = 0x03)
    (hx : x.length = 32) :
    unserialize K stale (b :: x ++ rest) = some ([33, b] ++ x ++ [OP_CHECKSIG], rest) := by
  rcases hb with rfl | rfl
  · refine unserialize_form 2 rfl (by decide) hx ?_
    rw [decompress, List.take_of_length_le hx.le]
    rfl
  · refine unserialize_form 3 rfl (by decide) hx ?_
    rw [decompress, List.take_of_length_le hx.le]
    rfl

/-- The first coordinate and the lowest bit of the second one are enough. -/
theorem unserialize_uncompressed (hK : K.Lawful) {x y : List UInt8} (hx : x.length = 32)
    (hy : y.length = 32) (hvalid : K.isFullyValid (0x04 :: (x ++ y)) = true) :
    unserialize K stale ((0x04 ||| (y.getD 31 0 &&& 0x01)) :: x ++ rest) =
      some ([65] ++ 0x04 :: (x ++ y) ++ [OP_CHECKSIG], rest) := by
  have hset : ∀ b : UInt8, b = 0x02 ∨ b = 0x03 → CPubKey.set (b :: x.take 32) = b :: x := by
    intro b hb
    rw [List.take_of_length_le hx.le, CPubKey.set, CPubKey.getLen, if_pos hb, List.length_cons, hx,
      if_pos rfl]
  have hdec := hK.decompress_eq hx hy hvalid
  rcases low_bit (y.getD 31 0) with hbit | hbit
  · rw [hbit] at hdec ⊢
    refine unserialize_form 4 rfl (by decide) hx ?_
    simp only [decompress, show UInt8.ofNat (4 - 2) = 0x02 from rfl, hset _ (.inl rfl)]
    rw [show K.decompress (0x02 :: x) = _ from hdec]
  · rw [hbit] at hdec ⊢
    refine unserialize_form 5 rfl (by decide) hx ?_
    simp only [decompress, show UInt8.ofNat (5 - 2) = 0x03 from rfl, hset _ (.inr rfl)]
    rw [show K.decompress (0x03 :: x) = _ from hdec]

/-- **A special form is read back.** -/
theorem unserialize_of_compress (hK : K.Lawful) (h : compress K script = some compr) :
    unserialize K stale (compr ++ rest) = some (script, rest) := by
  rw [compress] at h
  rcases hkey : isToKeyID script with - | keyID
  · rcases hscript : isToScriptID script with - | scriptID
    · rcases hpub : isToPubKey K script with - | pubkey
      · rw [hkey, hscript, hpub] at h
        cases h
      · rw [hkey, hscript, hpub] at h
        rcases eq_of_isToPubKey hpub with
          ⟨b, x, hb, hx, rfl, rfl⟩ | ⟨x, y, hx, hy, rfl, hvalid, rfl⟩
        · obtain rfl : b :: x = compr := by
            refine (Option.some.inj ((if_pos hb).symm.trans h)).symm ▸ ?_
            rw [List.headD_cons, List.drop_one, List.tail_cons, List.take_of_length_le hx.le]
          exact unserialize_compressed hb hx
        · obtain rfl : (0x04 ||| (y.getD 31 0 &&& 0x01)) :: x = compr := by
            rw [← Option.some_inj, ← h, show y.getD 31 0 = (0x04 :: (x ++ y)).getD 64 0 by
              rw [List.getD_cons_succ, List.getD_append_right _ _ _ _ (by omega), hx]]
            show _ = some (_ :: (x ++ y).take 32)
            rw [List.take_left' hx]
          exact unserialize_uncompressed hK hx hy hvalid
    · rw [hkey, hscript] at h
      obtain rfl := Option.some.inj h
      obtain ⟨hlen, rfl⟩ := eq_of_isToScriptID hscript
      exact unserialize_scriptID hlen
  · rw [hkey] at h
    obtain rfl := Option.some.inj h
    obtain ⟨hlen, rfl⟩ := eq_of_isToKeyID hkey
    exact unserialize_keyID hlen

/-- Only short scripts have a special form. -/
theorem length_of_compress (h : compress K script = some compr) : script.length ≤ 67 := by
  rw [compress] at h
  rcases hkey : isToKeyID script with - | keyID
  · rcases hscript : isToScriptID script with - | scriptID
    · rcases hpub : isToPubKey K script with - | pubkey
      · rw [hkey, hscript, hpub] at h
        cases h
      · rw [isToPubKey] at hpub
        split_ifs at hpub with hshort hlong
        · exact hshort.1.le.trans (by decide)
        · exact hlong.1.le
    · rw [isToScriptID, Option.ite_none_right_eq_some] at hscript
      exact hscript.1.1.le.trans (by decide)
  · rw [isToKeyID, Option.ite_none_right_eq_some] at hkey
    exact hkey.1.1.le.trans (by decide)

/-! ## Every script -/

variable (K) in
/-- The script is read back from its serialization, with what follows left, and its size is what it
was said to be. -/
def Restores (script stale : CScript) (rest : List UInt8) : Prop :=
  unserialize K stale (serialize K script ++ rest) = some (script, rest) ∧
    getSerializeSize K script = (serialize K script).length

/-- A script after a size that fits. -/
theorem restores_raw (h : compress K script = none) (hlen : script.length + 6 < 2 ^ 32) :
    Restores K script stale rest := by
  have hsize : (script.length + nSpecialScripts) % 2 ^ 32 = script.length + 6 :=
    Nat.mod_eq_of_lt hlen
  have hvar := length_writeVarInt_le (w := 32) (by decide) hlen
  rw [Restores, serialize, getSerializeSize, h]
  dsimp only
  rw [hsize]
  constructor
  · have hread := ((varInt_canonical_iff (w := 32) (by decide)).1 _ hlen).1 (script ++ rest)
    have hspecial : ¬ script.length + 6 < nSpecialScripts := Nat.not_lt.2 (Nat.le_add_left 6 _)
    rw [List.append_assoc, unserialize_of_readVarInt hread, if_neg hspecial]
    exact get_raw_append (Nat.add_sub_cancel _ 6).symm rest
  · have hsmall : (writeVarInt (script.length + 6)).length ≤ 5 := hvar
    rw [length_writeVarInt] at hsmall
    rw [List.length_append, length_writeVarInt, add_comm (getSizeOfVarInt _), Nat.mod_eq_of_lt]
    omega

/-- A size that does not fit is written modulo `2 ^ 32`, and less is read than was written. -/
theorem not_restores_long (hlen : 2 ^ 32 ≤ script.length + 6) : ¬ Restores K script stale rest := by
  rintro ⟨hread, -⟩
  have hnone : compress K script = none := by
    refine Option.eq_none_iff_forall_ne_some.2 fun compr hcompr ↦ ?_
    have := length_of_compress hcompr
    omega
  obtain ⟨nSize, hsize⟩ : ∃ nSize, nSize = (script.length + nSpecialScripts) % 2 ^ 32 := ⟨_, rfl⟩
  have hlt : nSize < 2 ^ 32 := hsize ▸ Nat.mod_lt _ (by decide)
  have hread' := ((varInt_canonical_iff (w := 32) (by decide)).1 nSize hlt).1 (script ++ rest)
  rw [serialize, hnone] at hread
  dsimp only at hread
  rw [← hsize, List.append_assoc, unserialize_of_readVarInt hread'] at hread
  -- at most `nSize` bytes are read, or 32
  have hleft : ∀ {n : ℕ} {script' : List UInt8} {rest' : List UInt8}, n < script.length →
      (Codec.raw n).get (script ++ rest) = some (script', rest') → rest' ≠ rest := by
    rintro n script' rest' hn hget rfl
    have heq := hget
    rw [Codec.raw] at hget
    dsimp only at hget
    split_ifs at hget
    obtain ⟨-, hdrop⟩ := Prod.mk.inj (Option.some.inj hget)
    have := congrArg List.length hdrop
    rw [List.length_drop, List.length_append] at this
    omega
  split_ifs at hread with hspecial
  · obtain ⟨⟨vch, s⟩, hget, hpair⟩ := Option.map_eq_some_iff.1 hread
    have hsmall : getSpecialSize nSize < script.length := by
      rw [getSpecialSize]
      split_ifs
      all_goals omega
    exact hleft hsmall hget (Prod.mk.inj hpair).2
  · refine hleft ?_ hread rfl
    rw [nSpecialScripts] at hspecial hsize ⊢
    omega

/-- **Which scripts are restored.** -/
theorem restores_iff (hK : K.Lawful) (script stale : CScript) (rest : List UInt8) :
    Restores K script stale rest ↔ script.length + 6 < 2 ^ 32 := by
  constructor
  · intro h
    by_contra hlong
    exact not_restores_long (Nat.not_lt.1 hlong) h
  · intro hlen
    rcases hcompr : compress K script with - | compr
    · exact restores_raw hcompr hlen
    · rw [Restores, serialize, getSerializeSize, hcompr]
      exact ⟨unserialize_of_compress hK hcompr, rfl⟩

end

namespace Sample

def generatorX : List UInt8 :=
  [0x79, 0xbe, 0x66, 0x7e, 0xf9, 0xdc, 0xbb, 0xac, 0x55, 0xa0, 0x62, 0x95, 0xce, 0x87, 0x0b, 0x07,
    0x02, 0x9b, 0xfc, 0xdb, 0x2d, 0xce, 0x28, 0xd9, 0x59, 0xf2, 0x81, 0x5b, 0x16, 0xf8, 0x17, 0x98]

def generatorY : List UInt8 :=
  [0x48, 0x3a, 0xda, 0x77, 0x26, 0xa3, 0xc4, 0x65, 0x5d, 0xa4, 0xfb, 0xfc, 0x0e, 0x11, 0x08, 0xa8,
    0xfd, 0x17, 0xb4, 0x48, 0xa6, 0x85, 0x54, 0x19, 0x9c, 0x47, 0xd0, 0x8f, 0xfb, 0x10, 0xd4, 0xb8]

/-- The generator of the curve is the only key. -/
def pubKeyOps : PubKeyOps where
  isFullyValid key := decide (key = 0x04 :: (generatorX ++ generatorY))
  decompress key :=
    if key = 0x02 :: generatorX then some (0x04 :: (generatorX ++ generatorY)) else none

theorem lawful_pubKeyOps : pubKeyOps.Lawful where
  decompress_eq hx hy h := by
    have hkey := (List.cons.inj (of_decide_eq_true h)).2
    obtain ⟨rfl, rfl⟩ := List.append_inj hkey hx
    decide

end Sample

/-- The script that pays to the generator. -/
theorem restores_iff_sample :
    Restores Sample.pubKeyOps
      ([65] ++ 0x04 :: (Sample.generatorX ++ Sample.generatorY) ++ [OP_CHECKSIG]) [] [7] :=
  (restores_iff Sample.lawful_pubKeyOps _ [] [7]).2 (by decide)

/-- The size of a script of `2 ^ 32 - 6` bytes is written as zero. -/
theorem not_restores_all : ¬ ∀ script stale rest, Restores Sample.pubKeyOps script stale rest := by
  intro h
  refine not_restores_long ?_ (h (List.replicate (2 ^ 32 - 6) 0) [] [])
  rw [List.length_replicate]
  exact le_rfl

end CScriptCompressor

end Bws
