import Bws.AddrMan
import Bws.Base64
import Bws.NetBase

/-!
# The text of an address

`CService::ToStringIPPort` writes an address of one of four kinds, and `Lookup` reads such a text:
the names of hidden services from base 32, the others with the help of the system.  The reader puts
the prefix of Tor in front of the name of an I2P service, so that just these addresses are not read
back (`lookup_toStringIPPort_iff`).
-/

namespace Bws

/-! ## The kinds of addresses -/

def pchIPv4 : List UInt8 := [0, 0, 0, 0, 0, 0, 0, 0, 0, 0, 0xff, 0xff]
def pchOnionCat : List UInt8 := [0xFD, 0x87, 0xD8, 0x7E, 0xEB, 0x43]
def pchGarliCat : List UInt8 := [0xFD, 0x60, 0xDB, 0x4D, 0xDD, 0xB5]

/-- `memcmp(ip, pch, sizeof(pch)) == 0` -/
def beginsWith (ip : CNetAddr) (pch : List UInt8) : Bool := ip.toList.take pch.length = pch

def isIPv4 (ip : CNetAddr) : Bool := beginsWith ip pchIPv4
def isTor (ip : CNetAddr) : Bool := beginsWith ip pchOnionCat
def isI2P (ip : CNetAddr) : Bool := beginsWith ip pchGarliCat
def isIPv6 (ip : CNetAddr) : Bool := !isIPv4 ip && !isTor ip && !isI2P ip

/-- An address of the system, without its port. -/
inductive SockAddr where
  | inet (addr : Vector UInt8 4)
  | inet6 (addr : Vector UInt8 16)
  | other
deriving DecidableEq

/-- `CService::GetSockAddr` -/
def getSockAddr (ip : CNetAddr) : Option SockAddr :=
  if isIPv4 ip then some (.inet (ip.drop 12))
  else if isIPv6 ip then some (.inet6 ip)
  else none

/-- The constructors of `CNetAddr` for `in_addr` and `in6_addr`. -/
def SockAddr.toCNetAddr : SockAddr → Option CNetAddr
  | .inet addr => some ((⟨pchIPv4.toArray, rfl⟩ : Vector UInt8 12) ++ addr)
  | .inet6 addr => some addr
  | .other => none

/-! ## Writing -/

/-- What the system makes of addresses and of names: `getnameinfo` with `NI_NUMERICHOST`, and
`getaddrinfo`, which may ask for names or not. -/
structure Resolver where
  getnameinfo : SockAddr → Option (List UInt8)
  getaddrinfo : Bool → List UInt8 → Option (List SockAddr)

def getByte (ip : CNetAddr) (n : Fin 16) : ℕ := ip[15 - n.val].toNat

/-- `strprintf("%x", n)` -/
def hexText (n : ℕ) : List UInt8 :=
  if n = 0 then ascii "0"
  else (Radix.digits 16 n).map fun d ↦ (ascii "0123456789abcdef").getD d 0

/-- `GetByte(n) << 8 | GetByte(n-1)` in hexadecimal digits. -/
def hexPair (ip : CNetAddr) (n : Fin 16) : List UInt8 :=
  hexText (getByte ip n <<< 8 ||| getByte ip (n - 1))

/-- `CNetAddr::ToStringIP` -/
def toStringIP (R : Resolver) (ip : CNetAddr) : List UInt8 :=
  if isTor ip then encodeBase32 (ip.toList.drop 6) ++ ascii ".onion"
  else if isI2P ip then encodeBase32 (ip.toList.drop 6) ++ ascii ".oc.b32.i2p"
  else match (getSockAddr ip).bind R.getnameinfo with
    | some name => name
    | none =>
      if isIPv4 ip then
        Decimal.text (getByte ip 3) ++ ascii "." ++ Decimal.text (getByte ip 2) ++ ascii "." ++
          Decimal.text (getByte ip 1) ++ ascii "." ++ Decimal.text (getByte ip 0)
      else
        hexPair ip 15 ++ ascii ":" ++ hexPair ip 13 ++ ascii ":" ++ hexPair ip 11 ++ ascii ":" ++
          hexPair ip 9 ++ ascii ":" ++ hexPair ip 7 ++ ascii ":" ++ hexPair ip 5 ++ ascii ":" ++
          hexPair ip 3 ++ ascii ":" ++ hexPair ip 1

def toStringPort (addr : CService) : List UInt8 := Decimal.text addr.port.toNat

/-- `CService::ToStringIPPort` -/
def toStringIPPort (R : Resolver) (addr : CService) : List UInt8 :=
  if isIPv4 addr.ip || isTor addr.ip || isI2P addr.ip then
    toStringIP R addr.ip ++ ascii ":" ++ toStringPort addr
  else ascii "[" ++ toStringIP R addr.ip ++ ascii "]:" ++ toStringPort addr

/-! ## Reading -/

/-- Sixteen bytes, a prefix of six and ten others, if there are as many. -/
def withPrefix (pch : List UInt8) (vchAddr : List UInt8) : Option CNetAddr :=
  if h : (pch ++ vchAddr).length = 16 then some ⟨(pch ++ vchAddr).toArray, h⟩ else none

/-- `strName.size() > n && strName.substr(strName.size() - n, n) == suffix` -/
def endsWith (strName suffix : List UInt8) : Bool :=
  suffix.length < strName.length ∧ strName.drop (strName.length - suffix.length) = suffix

/-- `CNetAddr::SetSpecial`, with the address that it sets if it returns true. -/
def setSpecial (strName : List UInt8) : Option CNetAddr :=
  if endsWith strName (ascii ".onion") then
    withPrefix pchOnionCat (decodeBase32 (cStr (strName.take (strName.length - 6)))).1
  else if endsWith strName (ascii ".oc.b32.i2p") then
    -- the prefix that is copied is `pchOnionCat` here too
    withPrefix pchOnionCat (decodeBase32 (cStr (strName.take (strName.length - 11)))).1
  else none

/-- The loop of `LookupIntern` over what the system has found. -/
def collectAddrs (nMaxSolutions : ℕ) (vIP : List CNetAddr) : List SockAddr → List CNetAddr
  | [] => vIP
  | aiTrav :: aiRes =>
    if nMaxSolutions = 0 ∨ vIP.length < nMaxSolutions then
      collectAddrs nMaxSolutions (vIP ++ aiTrav.toCNetAddr.toList) aiRes
    else vIP

/-- `LookupIntern`; nothing is returned for `false`. -/
def lookupIntern (R : Resolver) (pszName : List UInt8) (nMaxSolutions : ℕ) (fAllowLookup : Bool) :
    Option (List CNetAddr) :=
  match setSpecial pszName with
  | some addr => some [addr]
  | none => (R.getaddrinfo fAllowLookup pszName).bind fun aiRes ↦
    let vIP := collectAddrs nMaxSolutions [] aiRes
    if 0 < vIP.length then some vIP else none

/-- `Lookup` of one service; nothing is returned for `false`. -/
def lookup (R : Resolver) (pszName : List UInt8) (portDefault : Int32) (fAllowLookup : Bool) :
    Option CService :=
  let str := cStr pszName
  if str = [] then none
  else (splitHostPort str portDefault).bind fun (port, hostname) ↦
    (lookupIntern R (cStr hostname) 1 fAllowLookup).bind fun vIP ↦
      vIP.head?.map (⟨·, UInt16.ofInt port.toInt⟩)

/-! ## What the system is relied on for -/

/-- A character of an address in numbers. -/
def IsNumeric (c : UInt8) : Prop :=
  Decimal.isDigit c ∨ 0x61 ≤ c ∧ c ≤ 0x66 ∨ c = 0x2e ∨ c = 0x3a

instance : DecidablePred IsNumeric := fun _ ↦ inferInstanceAs (Decidable (_ ∨ _))

/-- An address is written in numbers, an IPv4 address without a colon, and read back without asking
for names. -/
def Resolver.Inverts (R : Resolver) (a : SockAddr) : Prop :=
  ∃ name aiRes, R.getnameinfo a = some name ∧ R.getaddrinfo false name = some (a :: aiRes) ∧
    (∀ c ∈ name, IsNumeric c) ∧ ∀ addr, a = .inet addr → 0x3a ∉ name

/-! ## Names -/

section

variable {R : Resolver} {ip : CNetAddr} {name : List UInt8} {c : UInt8}

theorem mem_of_endsWith {suffix : List UInt8} (h : endsWith name suffix = true) (hc : c ∈ suffix) :
    c ∈ name := by
  obtain ⟨-, h⟩ := of_decide_eq_true h
  rw [← h] at hc
  exact List.mem_of_mem_drop hc

/-- A name in numbers is no name of a hidden service. -/
theorem setSpecial_of_numeric (h : ∀ c ∈ name, IsNumeric c) : setSpecial name = none := by
  have ho : ∀ suffix, (0x6f : UInt8) ∈ suffix → endsWith name suffix = false := by
    intro suffix hmem
    rw [← Bool.not_eq_true]
    exact fun hends ↦ absurd (h _ (mem_of_endsWith hends hmem)) (by decide)
  rw [setSpecial, ho (ascii ".onion") (by decide +kernel),
    ho (ascii ".oc.b32.i2p") (by decide +kernel)]
  rfl

/-- The name of a hidden service is read as far as its suffix. -/
theorem endsWith_append {body suffix : List UInt8} (hbody : body ≠ []) :
    endsWith (body ++ suffix) suffix = true := by
  have hpos := List.length_pos_iff.2 hbody
  refine decide_eq_true ⟨by simp [hpos], ?_⟩
  rw [List.length_append, Nat.add_sub_cancel, List.drop_left]

theorem encodeBase32_mem (v : List UInt8) : ∀ c ∈ encodeBase32 v, c ∈ pbase32 ∨ c = 0x3d := by
  obtain ⟨out, k, x, hre, hencode⟩ := base32_lawful.encode_spec v
  rw [show encodeBase32 v = base32.encode v from rfl, hencode]
  intro c hc
  rcases List.mem_append.1 hc with hc | hc
  · obtain ⟨d, hd, rfl⟩ := List.mem_map.1 hc
    exact .inl (base32_lawful.char_mem (Regroup.padded_lt hre d hd))
  · exact .inr (List.eq_of_mem_replicate hc)

theorem encodeBase32_ne_nil {v : List UInt8} (hv : v ≠ []) : encodeBase32 v ≠ [] := by
  intro h
  have hdecode : decodeBase32 (encodeBase32 v) = (v, false) := base32_lawful.decode_encode v
  rw [h] at hdecode
  exact hv (Prod.ext_iff.1 hdecode).1.symm

/-- No character of the names that are written means anything where a text is split. -/
theorem plain_of_base32 : ∀ c : UInt8, c ∈ pbase32 ∨ c = 0x3d → c ≠ 0 ∧ c ≠ 0x3a ∧ c ≠ 0x5b := by
  decide +kernel

theorem plain_of_numeric : ∀ c : UInt8, IsNumeric c → c ≠ 0 ∧ c ≠ 0x5b := by
  decide +kernel

/-- The bytes of a hidden service behind its prefix. -/
theorem withPrefix_drop {pch : List UInt8} (h : beginsWith ip pch = true) :
    withPrefix pch (ip.toList.drop pch.length) = some ip := by
  have htake : ip.toList.take pch.length = pch := of_decide_eq_true h
  have hsplit := List.take_append_drop pch.length ip.toList
  rw [htake] at hsplit
  rw [withPrefix, dif_pos (by rw [hsplit, Vector.length_toList]), Option.some_inj,
    ← Vector.toArray_inj]
  dsimp only
  rw [hsplit]
  exact Array.toArray_toList

/-- **The name of a hidden service** is read as one of Tor, with the bytes behind the prefix. -/
theorem setSpecial_encodeBase32 {v suffix : List UInt8} (hv : v ≠ [])
    (hsuffix : suffix = ascii ".onion" ∨ suffix = ascii ".oc.b32.i2p") :
    setSpecial (encodeBase32 v ++ suffix) = withPrefix pchOnionCat v := by
  have hends : endsWith (encodeBase32 v ++ suffix) suffix = true :=
    endsWith_append (encodeBase32_ne_nil hv)
  have hdecode : decodeBase32 (cStr (encodeBase32 v)) = (v, false) := by
    rw [cStr_eq_self fun h ↦ (plain_of_base32 0 (encodeBase32_mem v 0 h)).1 rfl]
    exact base32_lawful.decode_encode v
  have htake : (encodeBase32 v ++ suffix).take ((encodeBase32 v ++ suffix).length - suffix.length) =
      encodeBase32 v := by
    rw [List.length_append, Nat.add_sub_cancel, List.take_left']
    rfl
  rcases hsuffix with rfl | rfl
  · rw [setSpecial, if_pos hends, show 6 = (ascii ".onion").length by decide +kernel, htake,
      hdecode]
  · have hother : endsWith (encodeBase32 v ++ ascii ".oc.b32.i2p") (ascii ".onion") = false := by
      refine decide_eq_false fun h ↦ absurd h.2 ?_
      rw [List.length_append, show (ascii ".oc.b32.i2p").length = 5 + (ascii ".onion").length by
        decide +kernel, ← Nat.add_assoc, Nat.add_sub_cancel, List.drop_length_add_append]
      decide +kernel
    rw [setSpecial, hother, if_neg Bool.false_ne_true, if_pos hends,
      show 11 = (ascii ".oc.b32.i2p").length by decide +kernel, htake, hdecode]

/-! ## Looking up -/

/-- A host and a port are looked up as the host is. -/
theorem lookup_append {host : List UInt8} {port : UInt16} (hport : port ≠ 0) (hzero : 0 ∉ host)
    (hhost : 0x3a ∉ host ∨ host.head? = some 0x5b ∧ host.getLast? = some 0x5d)
    (portDefault : Int32) :
    lookup R (host ++ 0x3a :: Decimal.text port.toNat) portDefault false =
      (lookupIntern R (cStr (inner host)) 1 false).bind fun vIP ↦ vIP.head?.map (⟨·, port⟩) := by
  have hstr : 0 ∉ host ++ 0x3a :: Decimal.text port.toNat := by
    simp [hzero, (denotes_text port.toNat).zero_notMem]
  have hlt := port.toNat_lt
  have htoInt : (Int32.ofInt port.toNat).toInt = port.toNat :=
    Int32.toInt_ofInt_of_le (by omega) (by omega)
  have hback : UInt16.ofInt (Int32.ofInt port.toNat).toInt = port := by
    rw [htoInt, UInt16.ofInt, ← UInt16.toNat_inj, UInt16.toNat_ofNat']
    omega
  rw [lookup, cStr_eq_self hstr]
  dsimp only
  rw [if_neg (by simp), splitHostPort_append hport hhost, Option.bind_some]
  dsimp only
  rw [hback]

theorem inner_of_head {host : List UInt8} (h : host.head? ≠ some 0x5b) : inner host = host :=
  if_neg fun hb ↦ h hb.1

theorem inner_brackets (name : List UInt8) : inner (0x5b :: name ++ [0x5d]) = name := by
  rw [inner, if_pos ⟨rfl, List.getLast?_concat⟩, List.cons_append, List.tail_cons,
    List.dropLast_concat]

theorem toCNetAddr_getSockAddr {a : SockAddr} (h : getSockAddr ip = some a) :
    a.toCNetAddr = some ip := by
  rw [getSockAddr] at h
  split_ifs at h with h4 h6
  · cases h
    have htake : ip.toList.take 12 = pchIPv4 := of_decide_eq_true h4
    have hsplit := List.take_append_drop 12 ip.toList
    rw [htake] at hsplit
    rw [SockAddr.toCNetAddr, Option.some_inj]
    apply Vector.toList_inj.1
    have hdrop : (ip.drop 12).toList = ip.toList.drop 12 := Vector.toList_drop
    rw [Vector.toList_append]
    exact (congrArg (pchIPv4 ++ ·) hdrop).trans hsplit
  · cases h
    rfl

/-- What has been found stays in front. -/
theorem collectAddrs_prefix (nMaxSolutions : ℕ) (vIP : List CNetAddr) (aiRes : List SockAddr) :
    vIP <+: collectAddrs nMaxSolutions vIP aiRes := by
  induction aiRes generalizing vIP with
  | nil => exact List.prefix_rfl
  | cons a aiRes ih =>
    rw [collectAddrs]
    split_ifs
    · exact (List.prefix_append _ _).trans (ih _)
    · exact List.prefix_rfl

/-- An address that the system reads back is found. -/
theorem lookupIntern_of_inverts {a : SockAddr} {aiRes : List SockAddr}
    (hname : ∀ c ∈ name, IsNumeric c) (hres : R.getaddrinfo false name = some (a :: aiRes))
    (ha : a.toCNetAddr = some ip) : ∃ vIP, lookupIntern R name 1 false = some (ip :: vIP) := by
  obtain ⟨vIP, hvIP⟩ := collectAddrs_prefix 1 [ip] aiRes
  replace hvIP : collectAddrs 1 [] (a :: aiRes) = ip :: vIP := by
    rw [collectAddrs, if_pos (.inr (by decide)), ha]
    exact hvIP.symm
  refine ⟨vIP, ?_⟩
  rw [lookupIntern, setSpecial_of_numeric hname]
  dsimp only
  rw [hres, Option.bind_some, hvIP]
  rfl

theorem ne_nil_of_ip (ip : CNetAddr) : ip.toList.drop 6 ≠ [] := by
  rw [Ne, List.drop_eq_nil_iff, Vector.length_toList]
  decide

/-- The name of a hidden service is looked up as it is read. -/
theorem lookup_service {suffix : List UInt8} {port : UInt16} (hport : port ≠ 0)
    (hsuffix : suffix = ascii ".onion" ∨ suffix = ascii ".oc.b32.i2p") (portDefault : Int32)
    {addr : CNetAddr} (haddr : withPrefix pchOnionCat (ip.toList.drop 6) = some addr) :
    lookup R (encodeBase32 (ip.toList.drop 6) ++ suffix ++ 0x3a :: Decimal.text port.toNat)
      portDefault false = some ⟨addr, port⟩ := by
  have hrest : ∀ c ∈ suffix, c ≠ 0 ∧ c ≠ 0x3a ∧ c ≠ 0x5b := by
    rcases hsuffix with rfl | rfl <;> decide +kernel
  have hplain : ∀ c ∈ encodeBase32 (ip.toList.drop 6) ++ suffix,
      c ≠ 0 ∧ c ≠ 0x3a ∧ c ≠ 0x5b := by
    intro c hc
    rcases List.mem_append.1 hc with hc | hc
    · exact plain_of_base32 c (encodeBase32_mem _ c hc)
    · exact hrest c hc
  have hhead : (encodeBase32 (ip.toList.drop 6) ++ suffix).head? ≠ some 0x5b :=
    fun h ↦ (hplain _ (List.mem_of_mem_head? h)).2.2 rfl
  rw [lookup_append hport (fun h ↦ (hplain _ h).1 rfl) (.inl fun h ↦ (hplain _ h).2.1 rfl),
    inner_of_head hhead, cStr_eq_self fun h ↦ (hplain _ h).1 rfl, lookupIntern,
    setSpecial_encodeBase32 (ne_nil_of_ip ip) hsuffix, haddr]
  rfl

/-- A prefix decides about a kind of address. -/
theorem not_beginsWith {pch pch' : List UInt8} (h : beginsWith ip pch = true)
    (hlen : pch.length = pch'.length) (hne : pch ≠ pch') : beginsWith ip pch' = false := by
  have htake : ip.toList.take pch.length = pch := of_decide_eq_true h
  refine decide_eq_false ?_
  rwa [← hlen, htake]

/-- An address of Tor is found under its text. -/
theorem lookup_tor {port : UInt16} (hport : port ≠ 0) (h : isTor ip = true) (portDefault : Int32) :
    lookup R (toStringIPPort R ⟨ip, port⟩) portDefault false = some ⟨ip, port⟩ := by
  have htext : toStringIPPort R ⟨ip, port⟩ =
      encodeBase32 (ip.toList.drop 6) ++ ascii ".onion" ++ 0x3a :: Decimal.text port.toNat := by
    rw [toStringIPPort, if_pos (by simp [h]), toStringIP, if_pos h, List.append_assoc]
    rfl
  rw [htext, lookup_service hport (.inl rfl) portDefault (withPrefix_drop h)]

/-- Where a text of I2P leads to. -/
theorem lookup_i2p {port : UInt16} (hport : port ≠ 0) (h : isI2P ip = true) (portDefault : Int32) :
    lookup R (toStringIPPort R ⟨ip, port⟩) portDefault false ≠ some ⟨ip, port⟩ := by
  have htor : isTor ip = false := not_beginsWith h rfl (by decide)
  have htext : toStringIPPort R ⟨ip, port⟩ =
      encodeBase32 (ip.toList.drop 6) ++ ascii ".oc.b32.i2p" ++
        0x3a :: Decimal.text port.toNat := by
    rw [toStringIPPort, if_pos (by simp [h]), toStringIP, htor, if_neg Bool.false_ne_true, if_pos h,
      List.append_assoc]
    rfl
  obtain ⟨addr, haddr⟩ : ∃ addr, withPrefix pchOnionCat (ip.toList.drop 6) = some addr := by
    rw [withPrefix, dif_pos (by simp [pchOnionCat])]
    exact ⟨_, rfl⟩
  have haddrTor : isTor addr = true := by
    rw [withPrefix] at haddr
    split_ifs at haddr
    cases haddr
    rw [isTor, beginsWith, decide_eq_true_iff]
    exact List.take_left' rfl
  rw [htext, lookup_service hport (.inr rfl) portDefault haddr]
  intro heq
  cases heq
  exact absurd (haddrTor.symm.trans htor) (by decide)

/-- An address of the system is found under its text. -/
theorem lookup_sockAddr {port : UInt16} (hport : port ≠ 0) (htor : isTor ip = false)
    (hi2p : isI2P ip = false) (hR : ∀ a, getSockAddr ip = some a → R.Inverts a)
    (portDefault : Int32) :
    lookup R (toStringIPPort R ⟨ip, port⟩) portDefault false = some ⟨ip, port⟩ := by
  obtain ⟨a, ha⟩ : ∃ a, getSockAddr ip = some a := by
    by_cases h4 : isIPv4 ip = true
    · exact ⟨_, if_pos h4⟩
    · refine ⟨_, (if_neg h4).trans (if_pos ?_)⟩
      simp [isIPv6, h4, htor, hi2p]
  obtain ⟨name, aiRes, hname, hres, hnumeric, hcolon⟩ := hR a ha
  obtain ⟨vIP, hvIP⟩ := lookupIntern_of_inverts hnumeric hres (toCNetAddr_getSockAddr ha)
  have hip : toStringIP R ip = name := by
    rw [toStringIP, htor, hi2p, if_neg Bool.false_ne_true, if_neg Bool.false_ne_true, ha,
      Option.bind_some, hname]
  have hzero : 0 ∉ name := fun h ↦ (plain_of_numeric 0 (hnumeric 0 h)).1 rfl
  have hfound : (lookupIntern R (cStr name) 1 false).bind (fun vIP ↦
      vIP.head?.map ((⟨·, port⟩ : CNetAddr → CService))) = some ⟨ip, port⟩ := by
    rw [cStr_eq_self hzero, hvIP]
    rfl
  by_cases h4 : isIPv4 ip = true
  · have hhead : name.head? ≠ some 0x5b :=
      fun h ↦ (plain_of_numeric _ (hnumeric _ (List.mem_of_mem_head? h))).2 rfl
    have hinet : 0x3a ∉ name := by
      rw [getSockAddr, if_pos h4] at ha
      exact hcolon _ (Option.some.inj ha).symm
    have htext : toStringIPPort R ⟨ip, port⟩ = name ++ 0x3a :: Decimal.text port.toNat := by
      rw [toStringIPPort, if_pos (by simp [h4]), hip, List.append_assoc]
      rfl
    rw [htext, lookup_append hport hzero (.inl hinet), inner_of_head hhead, hfound]
  · have htext : toStringIPPort R ⟨ip, port⟩ =
        0x5b :: name ++ [0x5d] ++ 0x3a :: Decimal.text port.toNat := by
      rw [toStringIPPort, if_neg (by simp [h4, htor, hi2p]), hip]
      simp [ascii, toStringPort]
    rw [htext, lookup_append hport (by simp [hzero]) (.inr ⟨rfl, List.getLast?_concat⟩),
      inner_brackets, hfound]

/-- **Every address is found under its text**, unless it is one of I2P: that is found as one of
Tor. -/
theorem lookup_toStringIPPort_iff (R : Resolver) (addr : CService) (portDefault : Int32)
    (hR : ∀ a, getSockAddr addr.ip = some a → R.Inverts a) (hport : addr.port ≠ 0) :
    lookup R (toStringIPPort R addr) portDefault false = some addr ↔ ¬ isI2P addr.ip = true := by
  constructor
  · exact fun h hi2p ↦ lookup_i2p hport hi2p portDefault h
  · intro hi2p
    by_cases htor : isTor addr.ip = true
    · exact lookup_tor hport htor portDefault
    · exact lookup_sockAddr hport (Bool.eq_false_iff.2 htor) (Bool.eq_false_iff.2 hi2p) hR
        portDefault

end

namespace Sample

/-- What a system says about `2001:db8:1:2:3:4:5:6`. -/
def documentationAddr : CNetAddr :=
  #v[0x20, 0x01, 0x0d, 0xb8, 0, 1, 0, 2, 0, 3, 0, 4, 0, 5, 0, 6]

def resolver : Resolver where
  getnameinfo a :=
    if a = .inet6 documentationAddr then some (ascii "2001:db8:1:2:3:4:5:6") else none
  getaddrinfo _ name :=
    if name = ascii "2001:db8:1:2:3:4:5:6" then some [.inet6 documentationAddr] else none

def hiddenService : CNetAddr :=
  #v[0xFD, 0x60, 0xDB, 0x4D, 0xDD, 0xB5, 1, 2, 3, 4, 5, 6, 7, 8, 9, 10]

end Sample

open Sample in
/-- An IPv6 address, whose text has brackets. -/
theorem lookup_toStringIPPort_iff_sample :
    lookup resolver (toStringIPPort resolver ⟨documentationAddr, 8333⟩) 0 false =
      some ⟨documentationAddr, 8333⟩ ↔ ¬ isI2P documentationAddr = true := by
  refine lookup_toStringIPPort_iff resolver ⟨documentationAddr, 8333⟩ 0 ?_ (by decide)
  intro a ha
  cases ha.symm.trans (show getSockAddr documentationAddr = some (.inet6 documentationAddr) by
    decide +kernel)
  exact ⟨ascii "2001:db8:1:2:3:4:5:6", [], rfl, rfl, by decide +kernel, nofun⟩

open Sample in
/-- An I2P address is found as an address of Tor. -/
theorem not_lookup_hiddenService :
    toStringIPPort resolver ⟨hiddenService, 80⟩ = ascii "aebagbafaydqqcik.oc.b32.i2p:80" ∧
    lookup resolver (toStringIPPort resolver ⟨hiddenService, 80⟩) 0 false ≠
      some ⟨hiddenService, 80⟩ := by
  constructor
  · decide +kernel
  · exact lookup_i2p (by decide) (by decide +kernel) 0

end Bws
