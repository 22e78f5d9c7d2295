import Bws.NetLookup

/-!
# The groups of addresses

`GetGroup` names the range of an address, for which the tables of the address manager have only so
many buckets.  An address that translates or tunnels one of IPv4 has the group of that one, so that
whoever has a range of IPv4 does not get more groups from the ranges of IPv6 that come with it
(`getGroup_eq_iff`).
-/

namespace Bws

/-! ## The source -/

local instance neZeroSixteen : NeZero 16 := ⟨Nat.succ_ne_zero 15⟩

def isRFC1918 (ip : CNetAddr) : Bool :=
  isIPv4 ip && (getByte ip 3 = 10 || getByte ip 3 = 192 && getByte ip 2 = 168 ||
    getByte ip 3 = 172 && (16 ≤ getByte ip 2 && getByte ip 2 ≤ 31))

def isRFC3927 (ip : CNetAddr) : Bool := isIPv4 ip && (getByte ip 3 = 169 && getByte ip 2 = 254)

def isRFC3849 (ip : CNetAddr) : Bool :=
  getByte ip 15 = 0x20 && getByte ip 14 = 0x01 && getByte ip 13 = 0x0D && getByte ip 12 = 0xB8

/-- 6to4 -/
def isRFC3964 (ip : CNetAddr) : Bool := getByte ip 15 = 0x20 && getByte ip 14 = 0x02

/-- The well-known prefix of a translator. -/
def isRFC6052 (ip : CNetAddr) : Bool := beginsWith ip [0, 0x64, 0xFF, 0x9B, 0, 0, 0, 0, 0, 0, 0, 0]

/-- Teredo -/
def isRFC4380 (ip : CNetAddr) : Bool :=
  getByte ip 15 = 0x20 && getByte ip 14 = 0x01 && getByte ip 13 = 0 && getByte ip 12 = 0

def isRFC4862 (ip : CNetAddr) : Bool := beginsWith ip [0xFE, 0x80, 0, 0, 0, 0, 0, 0]

def isRFC4193 (ip : CNetAddr) : Bool := getByte ip 15 &&& 0xFE = 0xFC

/-- An address of IPv4 that has been translated. -/
def isRFC6145 (ip : CNetAddr) : Bool := beginsWith ip [0, 0, 0, 0, 0, 0, 0, 0, 0xFF, 0xFF, 0, 0]

def isRFC4843 (ip : CNetAddr) : Bool :=
  getByte ip 15 = 0x20 && getByte ip 14 = 0x01 && getByte ip 13 = 0x00 &&
    getByte ip 12 &&& 0xF0 = 0x10

def isLocal (ip : CNetAddr) : Bool :=
  -- IPv4 loopback
  isIPv4 ip && (getByte ip 3 = 127 || getByte ip 3 = 0) ||
  -- IPv6 loopback (::1/128)
  beginsWith ip [0, 0, 0, 0, 0, 0, 0, 0, 0, 0, 0, 0, 0, 0, 0, 1]

def isValid (ip : CNetAddr) : Bool :=
  -- addresses that an old version has shifted by three bytes
  if beginsWith ip (pchIPv4.drop 3) then false
  -- unspecified IPv6 address (::/128)
  else if beginsWith ip (List.replicate 16 0) then false
  -- documentation IPv6 address
  else if isRFC3849 ip then false
  -- INADDR_NONE, and 0
  else !(isIPv4 ip && (ip.toList.drop 12 = List.replicate 4 0xFF || ip.toList.drop 12 = List.replicate 4 0))

def isRoutable (ip : CNetAddr) : Bool :=
  isValid ip && !(isRFC1918 ip || isRFC3927 ip || isRFC4862 ip ||
    isRFC4193 ip && !isTor ip && !isI2P ip || isRFC4843 ip || isLocal ip)

/-- `enum Network` -/
inductive Network where
  | NET_UNROUTABLE
  | NET_IPV4
  | NET_IPV6
  | NET_TOR
  | NET_I2P
deriving DecidableEq

/-- The number of a network, as a byte. -/
def Network.byte : Network → UInt8
  | .NET_UNROUTABLE => 0
  | .NET_IPV4 => 1
  | .NET_IPV6 => 2
  | .NET_TOR => 3
  | .NET_I2P => 4

/-- The tunnel broker whose groups are smaller. -/
def isHeNet (ip : CNetAddr) : Bool :=
  getByte ip 15 = 0x20 && getByte ip 14 = 0x11 && getByte ip 13 = 0x04 && getByte ip 12 = 0x70

/-- The end of `GetGroup`: the class, the whole bytes, and a last one of which the low bits are set. -/
def groupOf (ip : CNetAddr) (nClass : UInt8) (nStartByte nBits : ℕ) : List UInt8 :=
  nClass :: (ip.toList.drop nStartByte).take (nBits / 8) ++
    if 0 < nBits % 8 then
      [ip.toList.getD (nStartByte + nBits / 8) 0 ||| (1 <<< UInt8.ofNat (nBits % 8) - 1)]
    else []

/-- `GetGroup`.  The class of the local addresses is not used, since they are not routable. -/
def getGroup (ip : CNetAddr) : List UInt8 :=
  if !isRoutable ip then groupOf ip Network.NET_UNROUTABLE.byte 0 0
  -- includes mapped IPv4, SIIT translated IPv4, and the well-known prefix
  else if isIPv4 ip || isRFC6145 ip || isRFC6052 ip then groupOf ip Network.NET_IPV4.byte 12 16
  -- for 6to4 tunnelled addresses, use the encapsulated IPv4 address
  else if isRFC3964 ip then groupOf ip Network.NET_IPV4.byte 2 16
  -- for Teredo-tunnelled IPv6 addresses, use the encapsulated IPv4 address
  else if isRFC4380 ip then [Network.NET_IPV4.byte, ip[12] ^^^ 0xFF, ip[13] ^^^ 0xFF]
  else if isTor ip then groupOf ip Network.NET_TOR.byte 6 4
  else if isI2P ip then groupOf ip Network.NET_I2P.byte 6 4
  -- for he.net, use /36 groups
  else if isHeNet ip then groupOf ip Network.NET_IPV6.byte 0 36
  -- for the rest of the IPv6 network, use /32 groups
  else groupOf ip Network.NET_IPV6.byte 0 32

/-! ## Ranges -/

/-- What is told apart: networks of half an address of IPv4, of a quarter of one of IPv6, or of a
sixteenth of what a kind of addresses has. -/
inductive AddrRange where
  | unroutable
  | ipv4 (net : UInt8 × UInt8)
  | tor (bits : Fin 16)
  | i2p (bits : Fin 16)
  | heNet (bits : Fin 16)
  | ipv6 (net : UInt8 × UInt8 × UInt8 × UInt8)
deriving DecidableEq

/-- The high half of a byte. -/
def highBits (b : UInt8) : Fin 16 := ⟨b.toNat / 16, Nat.div_lt_of_lt_mul b.toNat_lt⟩

/-- The IPv4 address that an address is, or that it translates or tunnels. -/
def embedded (ip : CNetAddr) : Option (Vector UInt8 4) :=
  if isIPv4 ip || isRFC6145 ip || isRFC6052 ip then some (ip.drop 12)
  else if isRFC3964 ip then some ⟨#[ip[2], ip[3], ip[4], ip[5]], rfl⟩
  else if isRFC4380 ip then
    some ⟨#[ip[12] ^^^ 0xFF, ip[13] ^^^ 0xFF, ip[14] ^^^ 0xFF, ip[15] ^^^ 0xFF], rfl⟩
  else none

theorem size_pchIPv4 : pchIPv4.toArray.size = 12 := rfl

/-- An IPv4 address as one of IPv6. -/
def mapped (addr : Vector UInt8 4) : CNetAddr :=
  (⟨pchIPv4.toArray, size_pchIPv4⟩ : Vector UInt8 12) ++ addr

/-- The network of an IPv4 address: its first half. -/
def netOf (addr : Vector UInt8 4) : UInt8 × UInt8 := (addr[0], addr[1])

def range (ip : CNetAddr) : AddrRange :=
  if isRoutable ip then
    match embedded ip with
    | some addr => .ipv4 (netOf addr)
    | none =>
      if isTor ip then .tor (highBits ip[6])
      else if isI2P ip then .i2p (highBits ip[6])
      else if isHeNet ip then .heNet (highBits ip[4])
      else .ipv6 (ip[0], ip[1], ip[2], ip[3])
  else .unroutable

/-- The low bits are set. -/
def AddrRange.fill (bits : Fin 16) : UInt8 := UInt8.ofNat (16 * bits + 15)

def AddrRange.group : AddrRange → List UInt8
  | .unroutable => [0]
  | .ipv4 (a, b) => [1, a, b]
  | .tor bits => [3, fill bits]
  | .i2p bits => [4, fill bits]
  | .heNet bits => [2, 0x20, 0x11, 0x04, 0x70, fill bits]
  | .ipv6 (a, b, c, d) => [2, a, b, c, d]

/-- The range that a group names. -/
def AddrRange.ofGroup : List UInt8 → Option AddrRange
  | [0] => some .unroutable
  | [1, a, b] => some (.ipv4 (a, b))
  | [3, b] => some (.tor (highBits b))
  | [4, b] => some (.i2p (highBits b))
  | [2, _, _, _, _, b] => some (.heNet (highBits b))
  | [2, a, b, c, d] => some (.ipv6 (a, b, c, d))
  | _ => none

theorem AddrRange.fill_highBits : ∀ b : UInt8, b ||| 15 = fill (highBits b) := by
  decide +kernel

theorem AddrRange.highBits_fill : ∀ bits : Fin 16, highBits (fill bits) = bits := by
  decide +kernel

theorem AddrRange.ofGroup_group (range : AddrRange) : ofGroup range.group = some range := by
  cases range with
  | unroutable => rfl
  | ipv4 net => rfl
  | tor bits => exact congrArg (some ∘ tor) (highBits_fill bits)
  | i2p bits => exact congrArg (some ∘ i2p) (highBits_fill bits)
  | heNet bits => exact congrArg (some ∘ heNet) (highBits_fill bits)
  | ipv6 net => rfl

/-! ## What the bytes are -/

variable {ip ip' : CNetAddr}

theorem drop_toList (ip : CNetAddr) {i : ℕ} (hi : i < 16) :
    ip.toList.drop i = ip[i] :: ip.toList.drop (i + 1) :=
  List.drop_eq_getElem_cons (by rwa [Vector.length_toList])

theorem getD_toList (ip : CNetAddr) {i : ℕ} (hi : i < 16) : ip.toList.getD i 0 = ip[i] := by
  rw [List.getD_eq_getElem?_getD, Vector.getElem?_toList, Vector.getElem?_eq_getElem hi,
    Option.getD_some]

theorem groupOf_two (ip : CNetAddr) (nClass : UInt8) {i : ℕ} (hi : i + 1 < 16) :
    groupOf ip nClass i 16 = [nClass, ip[i], ip[i + 1]] := by
  rw [groupOf, drop_toList ip (Nat.lt_of_succ_lt hi), drop_toList ip hi]
  rfl

theorem groupOf_half (ip : CNetAddr) (nClass : UInt8) {i : ℕ} (hi : i < 16) :
    groupOf ip nClass i 4 = [nClass, AddrRange.fill (highBits ip[i])] := by
  rw [← AddrRange.fill_highBits, ← getD_toList ip hi]
  rfl

theorem take_toList (ip : CNetAddr) : (ip.toList.drop 0).take 4 = [ip[0], ip[1], ip[2], ip[3]] := by
  rw [drop_toList ip (by decide), drop_toList ip (by decide), drop_toList ip (by decide),
    drop_toList ip (by decide)]
  rfl

theorem getElem_of_getByte {n : Fin 16} {m : ℕ} (h : getByte ip n = m) :
    ip[15 - n.val] = UInt8.ofNat m := by
  rw [← h, getByte, UInt8.ofNat_toNat]

theorem groupOf_heNet (h : isHeNet ip = true) :
    groupOf ip 2 0 36 = (AddrRange.heNet (highBits ip[4])).group := by
  simp only [isHeNet, Bool.and_eq_true, decide_eq_true_eq] at h
  obtain ⟨⟨⟨h₀, h₁⟩, h₂⟩, h₃⟩ := h
  have h₀ : ip[0] = 0x20 := getElem_of_getByte h₀
  have h₁ : ip[1] = 0x11 := getElem_of_getByte h₁
  have h₂ : ip[2] = 0x04 := getElem_of_getByte h₂
  have h₃ : ip[3] = 0x70 := getElem_of_getByte h₃
  have hgroup : groupOf ip 2 0 36 = 2 :: (ip.toList.drop 0).take 4 ++ [ip.toList.getD 4 0 ||| 15] :=
    rfl
  rw [hgroup, take_toList, getD_toList ip (by decide), h₀, h₁, h₂, h₃, AddrRange.fill_highBits]
  rfl

/-- **A group is the text of its range.** -/
theorem getGroup_eq (ip : CNetAddr) : getGroup ip = (range ip).group := by
  rw [getGroup, range]
  by_cases hroutable : isRoutable ip = true
  · rw [hroutable, Bool.not_true, if_neg Bool.false_ne_true, if_pos rfl, embedded]
    by_cases hipv4 : (isIPv4 ip || isRFC6145 ip || isRFC6052 ip) = true
    · rw [if_pos hipv4, if_pos hipv4, groupOf_two ip _ (by decide)]
      dsimp only
      rw [netOf, Vector.getElem_drop, Vector.getElem_drop]
      rfl
    rw [if_neg hipv4, if_neg hipv4]
    by_cases h6to4 : isRFC3964 ip = true
    · rw [if_pos h6to4, if_pos h6to4, groupOf_two ip _ (by decide)]
      rfl
    rw [if_neg h6to4, if_neg h6to4]
    by_cases hteredo : isRFC4380 ip = true
    · rw [if_pos hteredo, if_pos hteredo]
      rfl
    rw [if_neg hteredo, if_neg hteredo]
    dsimp only
    by_cases htor : isTor ip = true
    · rw [if_pos htor, if_pos htor, groupOf_half ip _ (by decide)]
      rfl
    rw [if_neg htor, if_neg htor]
    by_cases hi2p : isI2P ip = true
    · rw [if_pos hi2p, if_pos hi2p, groupOf_half ip _ (by decide)]
      rfl
    rw [if_neg hi2p, if_neg hi2p]
    by_cases hhe : isHeNet ip = true
    · rw [if_pos hhe, if_pos hhe]
      exact groupOf_heNet hhe
    · rw [if_neg hhe, if_neg hhe]
      exact congrArg (2 :: ·) (congrArg (· ++ []) (take_toList ip))
  · rw [Bool.eq_false_of_not_eq_true hroutable]
    rfl

/-- An address of IPv4 embeds itself. -/
theorem embedded_mapped (addr : Vector UInt8 4) : embedded (mapped addr) = some addr := by
  have hipv4 : isIPv4 (mapped addr) = true := by
    refine decide_eq_true ?_
    rw [mapped, Vector.toList_append]
    exact List.take_left' rfl
  rw [embedded, hipv4, Bool.true_or, Bool.true_or, if_pos rfl, mapped]
  refine congrArg some (Vector.ext fun i hi ↦ ?_)
  rw [Vector.getElem_drop, Vector.getElem_append_right _ (Nat.le_add_right 12 i)]
  congr 1
  exact Nat.add_sub_cancel_left 12 i

/-- **Addresses are in one group if and only if they are in one range**; the range of an address that
embeds one of IPv4 is the range of that one. -/
theorem getGroup_eq_iff : (∀ ip ip', getGroup ip = getGroup ip' ↔ range ip = range ip') ∧
    ∀ ip addr, isRoutable ip = true → isRoutable (mapped addr) = true → embedded ip = some addr →
      getGroup ip = getGroup (mapped addr) := by
  refine ⟨fun ip ip' ↦ ⟨fun h ↦ ?_, fun h ↦ ?_⟩, fun ip addr hroutable hmapped haddr ↦ ?_⟩
  · rw [getGroup_eq, getGroup_eq] at h
    have hread := AddrRange.ofGroup_group (range ip)
    rw [h, AddrRange.ofGroup_group] at hread
    exact (Option.some.inj hread).symm
  · rw [getGroup_eq, getGroup_eq, h]
  · rw [getGroup_eq, getGroup_eq, range, range, if_pos hroutable, if_pos hmapped, haddr,
      embedded_mapped]

/-- A tunnel, and what it leads to. -/
theorem getGroup_eq_iff_sample :
    getGroup #v[0x20, 0x02, 8, 9, 10, 11, 0, 0, 0, 0, 0, 0, 0, 0, 0, 1] =
      getGroup (mapped #v[8, 9, 10, 11]) :=
  getGroup_eq_iff.2 _ _ (by decide +kernel) (by decide +kernel) (by decide +kernel)

end Bws
