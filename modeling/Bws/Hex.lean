import Bws.Base58

/-!
# Bytes as hexadecimal digits

`HexStr` writes a byte as two digits, and `ParseHex` reads them back (`parseHex_hexStr`).  The
reader skips spaces in front of a byte, takes digits of either case, and stops where anything else
stands.
-/

namespace Bws

/-- The digit of `hexmap` -/
def hexmap (n : ℕ) : UInt8 :=
  if n < 10 then UInt8.ofNat (0x30 + n) else UInt8.ofNat (0x61 + (n - 10))

/-- `HexStr` -/
def hexStr (vch : List UInt8) : List UInt8 :=
  vch.flatMap fun val ↦ [hexmap (val.toNat / 16), hexmap (val.toNat % 16)]

/-- `phexdigit`, where `-1` is `none` -/
def phexdigit (c : UInt8) : Option ℕ :=
  if 0x30 ≤ c ∧ c ≤ 0x39 then some (c.toNat - 0x30)
  else if 0x61 ≤ c ∧ c ≤ 0x66 then some (c.toNat - 0x61 + 10)
  else if 0x41 ≤ c ∧ c ≤ 0x46 then some (c.toNat - 0x41 + 10)
  else none

/-- `ParseHex` -/
def parseHex : List UInt8 → List UInt8
  | c :: c' :: psz =>
    if isspace c then parseHex (c' :: psz)
    else
      match phexdigit c, phexdigit c' with
      | some n, some n' => UInt8.ofNat (16 * n + n') :: parseHex psz
      | _, _ => []
  | _ => []

theorem phexdigit_hexmap :
    ∀ n < 16, phexdigit (hexmap n) = some n ∧ isspace (hexmap n) = false := by decide

theorem parseHex_hexStr (vch : List UInt8) : parseHex (hexStr vch) = vch := by
  induction vch with
  | nil => rfl
  | cons val vch ih =>
    have hlt := val.toNat_lt
    obtain ⟨hhigh, hspace⟩ := phexdigit_hexmap (val.toNat / 16) (by omega)
    obtain ⟨hlow, -⟩ := phexdigit_hexmap (val.toNat % 16) (Nat.mod_lt _ (by decide))
    have hval : UInt8.ofNat (16 * (val.toNat / 16) + val.toNat % 16) = val := by
      rw [Nat.div_add_mod, UInt8.ofNat_toNat]
    rw [hexStr, List.flatMap_cons, List.cons_append, List.cons_append, List.nil_append, parseHex,
      hspace, if_neg Bool.false_ne_true, hhigh, hlow]
    dsimp only
    rw [hval]
    exact congrArg _ ih

end Bws
