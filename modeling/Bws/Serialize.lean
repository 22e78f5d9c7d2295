import Bws.Lib.Codec

/-!
# Reading what others have written

The reader of a size is stricter than the writer: it refuses a size that is not written in the
shortest way, and one that is larger than any message may be.
-/

namespace Bws

/-- The bytes of a string. -/
def ascii (s : String) : List UInt8 := s.toList.map fun c ↦ UInt8.ofNat c.toNat

/-- No message, vector or string may be larger. -/
def MAX_SIZE : ℕ := 0x02000000

/-- `ReadCompactSize` -/
def readCompactSize : List UInt8 → Option (ℕ × List UInt8)
  | [] => none
  | chSize :: bytes =>
    let r :=
      if chSize < 253 then some (chSize.toNat, bytes)
      else if chSize = 253 then ((Codec.uint 2).get bytes).filter (253 ≤ ·.1)
      else if chSize = 254 then ((Codec.uint 4).get bytes).filter (0x10000 ≤ ·.1)
      else ((Codec.uint 8).get bytes).filter (0x100000000 ≤ ·.1)
    r.filter (·.1 ≤ MAX_SIZE)

theorem readCompactSize_put {n : ℕ} (hn : n ≤ MAX_SIZE) (bytes : List UInt8) :
    readCompactSize (Codec.compactSize.put n ++ bytes) = some (n, bytes) := by
  have hfilter : ∀ p : ℕ × List UInt8 → Bool, p (n, bytes) = true →
      (some (n, bytes)).filter p = some (n, bytes) := fun p hp ↦ if_pos hp
  have hsize : decide (n ≤ MAX_SIZE) = true := decide_eq_true hn
  have hget : ∀ {k : ℕ}, n < 256 ^ k →
      (Codec.uint k).get (Codec.toLE k n ++ bytes) = some (n, bytes) :=
    fun h ↦ (Codec.uint _).get_put h bytes
  show readCompactSize ((if n < 253 then Codec.toLE 1 n
    else if n < 2 ^ 16 then 253 :: Codec.toLE 2 n
    else if n < 2 ^ 32 then 254 :: Codec.toLE 4 n
    else 255 :: Codec.toLE 8 n) ++ bytes) = _
  rw [MAX_SIZE] at hn
  split_ifs with h₁ h₂ h₃
  · have hbyte : (UInt8.ofNat (n % 256)).toNat = n := by
      rw [UInt8.toNat_ofNat']
      omega
    have hlt : UInt8.ofNat (n % 256) < 253 := by
      rw [UInt8.lt_iff_toNat_lt, hbyte]
      exact h₁
    show Option.filter _ (if UInt8.ofNat (n % 256) < 253
      then some ((UInt8.ofNat (n % 256)).toNat, bytes) else _) = _
    rw [if_pos hlt, hbyte]
    exact hfilter _ hsize
  · show Option.filter _ (if (253 : UInt8) < 253 then _ else if (253 : UInt8) = 253 then
      ((Codec.uint 2).get (Codec.toLE 2 n ++ bytes)).filter _ else _) = _
    rw [if_neg (by decide), if_pos rfl, hget (by omega), hfilter _ (decide_eq_true (not_lt.mp h₁))]
    exact hfilter _ hsize
  · show Option.filter _ (if (254 : UInt8) < 253 then _ else if (254 : UInt8) = 253 then _
      else if (254 : UInt8) = 254 then
      ((Codec.uint 4).get (Codec.toLE 4 n ++ bytes)).filter _ else _) = _
    rw [if_neg (by decide), if_neg (by decide), if_pos rfl, hget (by omega),
      hfilter _ (decide_eq_true (not_lt.mp h₂))]
    exact hfilter _ hsize
  · omega

/-- The size of what follows. -/
def sizeCodec : Codec ℕ where
  Valid n := n ≤ MAX_SIZE
  put := Codec.compactSize.put
  get := readCompactSize
  get_put h bytes := readCompactSize_put h bytes

/-- A vector, or a set, that another node has written. -/
def vectorCodec {α : Type} (F : Codec α) : Codec (List α) :=
  (sizeCodec.bind F.many).imap Prod.snd fun l ↦ (l.length, l)

/-- A string that another node has written. -/
def stringCodec : Codec (List UInt8) :=
  (sizeCodec.bind Codec.raw).imap Prod.snd fun l ↦ (l.length, l)

end Bws
