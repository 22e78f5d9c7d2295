import Bws.Core
import Bws.Serialize

/-!
# Alerts

`CAlert::ProcessAlert` checks the signature of an alert, removes the stored alerts that it cancels,
and stores it unless a stored alert cancels it.  The largest ID is reserved for the alert which tells
that the key is compromised; that alert never expires and cancels every smaller ID, so that whoever
has the key cannot override it.

It can be overridden: an alert with a smaller ID that cancels the largest one removes the final
alert before anybody looks whether it is itself cancelled (`finalAlert_stays_iff`,
`not_finalAlert_stays_of_override`).  For the same reason an alert that is refused may have cancelled
others (`refused_cancels_nothing_iff`).

The time is the same during one call.  Telling the user interface and running a command are left
out.
-/

namespace Bws

/-! ## The source -/

structure CUnsignedAlert where
  nVersion : ℤ
  nRelayUntil : ℤ
  nExpiration : ℤ
  nID : ℤ
  nCancel : ℤ
  setCancel : List ℤ
  nMinVer : ℤ
  nMaxVer : ℤ
  /-- empty matches all -/
  setSubVer : List (List UInt8)
  nPriority : ℤ
  strComment : List UInt8
  strStatusBar : List UInt8
  strReserved : List UInt8
deriving DecidableEq, Repr

namespace CUnsignedAlert

def codec : Codec CUnsignedAlert :=
  ((Codec.int 4).prod ((Codec.int 8).prod ((Codec.int 8).prod ((Codec.int 4).prod
    ((Codec.int 4).prod ((vectorCodec (Codec.int 4)).prod ((Codec.int 4).prod ((Codec.int 4).prod
    ((vectorCodec stringCodec).prod ((Codec.int 4).prod (stringCodec.prod
    (stringCodec.prod stringCodec)))))))))))).imap
    (fun ⟨nVersion, nRelayUntil, nExpiration, nID, nCancel, setCancel, nMinVer, nMaxVer, setSubVer,
        nPriority, strComment, strStatusBar, strReserved⟩ ↦
      ⟨nVersion, nRelayUntil, nExpiration, nID, nCancel, setCancel, nMinVer, nMaxVer, setSubVer,
        nPriority, strComment, strStatusBar, strReserved⟩)
    fun alert ↦ (alert.nVersion, alert.nRelayUntil, alert.nExpiration, alert.nID, alert.nCancel,
      alert.setCancel, alert.nMinVer, alert.nMaxVer, alert.setSubVer, alert.nPriority,
      alert.strComment, alert.strStatusBar, alert.strReserved)

/-- `sMsg >> *(CUnsignedAlert*)this`; what comes after the fields is ignored. -/
def unserialize (vchMsg : List UInt8) : Option CUnsignedAlert := (codec.get vchMsg).map Prod.fst

end CUnsignedAlert

/-- `std::numeric_limits<int>::max()` -/
def maxInt : ℤ := 2 ^ 31 - 1

/-- An alert that has been read from its message. -/
structure CAlert extends CUnsignedAlert where
  vchMsg : List UInt8
  vchSig : List UInt8
deriving DecidableEq

namespace CAlert

def isInEffect (nTime : ℤ) (alert : CAlert) : Bool := nTime < alert.nExpiration

/-- `this` cancels `alert`. -/
def cancels (nTime : ℤ) (this alert : CAlert) : Bool :=
  this.isInEffect nTime && (alert.nID ≤ this.nCancel || this.setCancel.contains alert.nID)

/-- What an alert with the largest ID has to be like. -/
def isFinal (alert : CAlert) : Bool :=
  alert.nExpiration = maxInt &&
  alert.nCancel = maxInt - 1 &&
  alert.nMinVer = 0 &&
  alert.nMaxVer = maxInt &&
  alert.setSubVer.isEmpty &&
  alert.nPriority = maxInt &&
  alert.strStatusBar = ascii "URGENT: Alert key compromised, upgrade required"

end CAlert

/-- What `ProcessAlert` returns; a message that cannot be read ends it with an exception. -/
inductive AlertOutcome
  | accepted
  | refused
  | exception
deriving DecidableEq

/-- An alert as it comes from a peer, and the time at which it is processed. -/
structure AlertMsg where
  vchMsg : List UInt8
  vchSig : List UInt8
  nTime : ℤ

section

variable {H : Type} [DecidableEq H]
  /- `Hash`, and `Verify` with the alert key -/
  (hash : List UInt8 → H) (verify : H → List UInt8 → Bool)

def CAlert.checkSignature (msg : AlertMsg) : Except AlertOutcome CAlert :=
  if !verify (hash msg.vchMsg) msg.vchSig then .error .refused
  else
    match CUnsignedAlert.unserialize msg.vchMsg with
    | none => .error .exception
    | some alert => .ok { alert with vchMsg := msg.vchMsg, vchSig := msg.vchSig }

/-- `map::insert`, which leaves an entry that is there. -/
def insertAlert (mapAlerts : List (H × CAlert)) (item : H × CAlert) : List (H × CAlert) :=
  if mapAlerts.any (·.1 = item.1) then mapAlerts else mapAlerts ++ [item]

def processAlert (mapAlerts : List (H × CAlert)) (msg : AlertMsg) :
    List (H × CAlert) × AlertOutcome :=
  match CAlert.checkSignature hash verify msg with
  | .error outcome => (mapAlerts, outcome)
  | .ok this =>
    if !this.isInEffect msg.nTime then (mapAlerts, .refused)
    else if this.nID = maxInt && !this.isFinal then (mapAlerts, .refused)
    else
      -- cancel previous alerts
      let mapAlerts := mapAlerts.filter fun item ↦
        !this.cancels msg.nTime item.2 && item.2.isInEffect msg.nTime
      -- check if this alert has been cancelled
      if mapAlerts.any fun item ↦ item.2.cancels msg.nTime this then (mapAlerts, .refused)
      else (insertAlert mapAlerts (hash this.vchMsg, this), .accepted)

/-- The alerts that are stored after some messages. -/
def processAlerts (msgs : List AlertMsg) : List (H × CAlert) :=
  msgs.foldl (fun mapAlerts msg ↦ (processAlert hash verify mapAlerts msg).1) []

/-! ## What one message does -/

/-- The message passes every check that does not look at the stored alerts. -/
structure Passes (msg : AlertMsg) (alert : CAlert) : Prop where
  read : CAlert.checkSignature hash verify msg = .ok alert
  inEffect : alert.isInEffect msg.nTime = true
  final : alert.nID = maxInt → alert.isFinal = true

/-- The stored alerts that an alert leaves. -/
def keptAlerts (mapAlerts : List (H × CAlert)) (nTime : ℤ) (this : CAlert) : List (H × CAlert) :=
  mapAlerts.filter fun item ↦ !this.cancels nTime item.2 && item.2.isInEffect nTime

variable {hash verify} {mapAlerts : List (H × CAlert)} {msg : AlertMsg} {alert final : CAlert}

omit [DecidableEq H] in
theorem checkSignature_ok (h : CAlert.checkSignature hash verify msg = .ok alert) :
    alert.vchMsg = msg.vchMsg ∧
      CUnsignedAlert.unserialize msg.vchMsg = some alert.toCUnsignedAlert := by
  unfold CAlert.checkSignature at h
  by_cases hverify : verify (hash msg.vchMsg) msg.vchSig
  · rw [hverify, Bool.not_true, if_neg Bool.false_ne_true] at h
    cases hread : CUnsignedAlert.unserialize msg.vchMsg with
    | none =>
      rw [hread] at h
      cases h
    | some fields =>
      rw [hread] at h
      cases h
      exact ⟨rfl, rfl⟩
  · rw [Bool.not_eq_true] at hverify
    rw [hverify, Bool.not_false, if_pos rfl] at h
    cases h

theorem processAlert_of_passes (h : Passes hash verify msg alert) :
    processAlert hash verify mapAlerts msg =
      if (keptAlerts mapAlerts msg.nTime alert).any (·.2.cancels msg.nTime alert) then
        (keptAlerts mapAlerts msg.nTime alert, .refused)
      else
        (insertAlert (keptAlerts mapAlerts msg.nTime alert) (hash alert.vchMsg, alert), .accepted) := by
  have hfinal : (alert.nID = maxInt && !alert.isFinal) = false := by
    by_cases hid : alert.nID = maxInt
    · rw [h.final hid, Bool.not_true, Bool.and_false]
    · rw [decide_eq_false hid, Bool.false_and]
  rw [processAlert, h.read]
  simp only [h.inEffect, Bool.not_true, Bool.false_eq_true, if_false, hfinal]
  rfl

theorem processAlert_of_not_passes (h : ∀ alert, ¬ Passes hash verify msg alert) :
    (processAlert hash verify mapAlerts msg).1 = mapAlerts ∧
      (processAlert hash verify mapAlerts msg).2 ≠ .accepted := by
  unfold processAlert
  cases hread : CAlert.checkSignature hash verify msg with
  | error outcome =>
    refine ⟨rfl, ?_⟩
    rintro rfl
    unfold CAlert.checkSignature at hread
    split_ifs at hread
    · cases hread
    · cases hfields : CUnsignedAlert.unserialize msg.vchMsg with
      | none =>
        rw [hfields] at hread
        cases hread
      | some fields =>
        rw [hfields] at hread
        cases hread
  | ok this =>
    by_cases heffect : this.isInEffect msg.nTime = true
    · by_cases hid : (this.nID = maxInt && !this.isFinal) = true
      · simp only [heffect, hid, Bool.not_true, Bool.false_eq_true, if_false, if_true]
        exact ⟨trivial, AlertOutcome.noConfusion⟩
      · refine absurd ⟨hread, heffect, fun hmax ↦ ?_⟩ (h this)
        by_contra hfinal
        rw [Bool.not_eq_true] at hfinal
        rw [hmax, hfinal] at hid
        exact hid rfl
    · rw [Bool.not_eq_true] at heffect
      simp only [heffect, Bool.not_false, if_true]
      exact ⟨trivial, AlertOutcome.noConfusion⟩

/-! ## The stored alerts -/

/-- An alert is stored under the hash of its message, with the fields of its message. -/
def Consistent (hash : List UInt8 → H) (mapAlerts : List (H × CAlert)) : Prop :=
  ∀ item ∈ mapAlerts, item.1 = hash item.2.vchMsg ∧
    CUnsignedAlert.unserialize item.2.vchMsg = some item.2.toCUnsignedAlert

/-- The alert with this message is stored. -/
def IsStored (hash : List UInt8 → H) (mapAlerts : List (H × CAlert)) (vchMsg : List UInt8) : Prop :=
  ∃ item ∈ mapAlerts, item.1 = hash vchMsg ∧ item.2.vchMsg = vchMsg

omit [DecidableEq H] in
theorem mem_keptAlerts {nTime : ℤ} {item : H × CAlert} : item ∈ keptAlerts mapAlerts nTime alert ↔
    item ∈ mapAlerts ∧ alert.cancels nTime item.2 = false ∧ item.2.isInEffect nTime = true := by
  rw [keptAlerts, List.mem_filter, Bool.and_eq_true, Bool.not_eq_true']

theorem mem_insertAlert {item new : H × CAlert} (h : item ∈ insertAlert mapAlerts new) :
    item ∈ mapAlerts ∨ item = new := by
  unfold insertAlert at h
  split_ifs at h
  · exact .inl h
  · exact (List.mem_append.mp h).imp_right List.mem_singleton.mp

theorem mem_insertAlert_of_mem {item new : H × CAlert} (h : item ∈ mapAlerts) :
    item ∈ insertAlert mapAlerts new := by
  unfold insertAlert
  split_ifs
  · exact h
  · exact List.mem_append_left _ h

theorem Consistent.step (h : Consistent hash mapAlerts) (msg : AlertMsg) :
    Consistent hash (processAlert hash verify mapAlerts msg).1 := by
  by_cases hpasses : ∃ alert, Passes hash verify msg alert
  · obtain ⟨alert, hpasses⟩ := hpasses
    have hkept : Consistent hash (keptAlerts mapAlerts msg.nTime alert) :=
      fun item hitem ↦ h item (mem_keptAlerts.mp hitem).1
    rw [processAlert_of_passes hpasses]
    split_ifs
    · exact hkept
    · intro item hitem
      obtain hold | rfl := mem_insertAlert hitem
      · exact hkept item hold
      · obtain ⟨hvchMsg, hread⟩ := checkSignature_ok hpasses.read
        exact ⟨rfl, by rwa [hvchMsg]⟩
  · rw [(processAlert_of_not_passes (not_exists.mp hpasses)).1]
    exact h

theorem processAlerts_append (msgs : List AlertMsg) (msg : AlertMsg) :
    processAlerts hash verify (msgs ++ [msg]) =
      (processAlert hash verify (processAlerts hash verify msgs) msg).1 := by
  rw [processAlerts, List.foldl_append]
  rfl

theorem consistent_processAlerts (msgs : List AlertMsg) :
    Consistent hash (processAlerts hash verify msgs) := by
  induction msgs using List.reverseRecOn with
  | nil => exact fun _ hitem ↦ absurd hitem List.not_mem_nil
  | append_singleton msgs msg ih =>
    rw [processAlerts_append]
    exact ih.step msg

/-! ## A refused alert -/

/-- The stored alerts that are in effect. -/
def effective (nTime : ℤ) (mapAlerts : List (H × CAlert)) : List (H × CAlert) :=
  mapAlerts.filter fun item ↦ item.2.isInEffect nTime

/-- The message passes the checks, one of the stored alerts in effect cancels it, and it cancels
another one of them. -/
def CancelsInVain (hash : List UInt8 → H) (verify : H → List UInt8 → Bool)
    (mapAlerts : List (H × CAlert)) (msg : AlertMsg) : Prop :=
  ∃ alert, Passes hash verify msg alert ∧
    (∃ item ∈ effective msg.nTime mapAlerts, alert.cancels msg.nTime item.2 = false ∧
      item.2.cancels msg.nTime alert = true) ∧
    ∃ item ∈ effective msg.nTime mapAlerts, alert.cancels msg.nTime item.2 = true

omit [DecidableEq H] in
theorem keptAlerts_eq (nTime : ℤ) : keptAlerts mapAlerts nTime alert =
    (effective nTime mapAlerts).filter fun item ↦ !alert.cancels nTime item.2 :=
  List.filter_filter.symm

omit [DecidableEq H] in
/-- What is kept is in effect. -/
theorem effective_keptAlerts (nTime : ℤ) :
    effective nTime (keptAlerts mapAlerts nTime alert) = keptAlerts mapAlerts nTime alert :=
  List.filter_eq_self.2 fun _ hitem ↦ (mem_keptAlerts.1 hitem).2.2

omit [DecidableEq H] in
theorem keptAlerts_eq_effective_iff (nTime : ℤ) :
    keptAlerts mapAlerts nTime alert = effective nTime mapAlerts ↔
      ∀ item ∈ effective nTime mapAlerts, alert.cancels nTime item.2 = false := by
  rw [keptAlerts_eq, List.filter_eq_self]
  simp only [Bool.not_eq_true']

omit [DecidableEq H] in
/-- Whether a kept alert cancels the message. -/
theorem any_keptAlerts (nTime : ℤ) :
    (keptAlerts mapAlerts nTime alert).any (·.2.cancels nTime alert) = true ↔
      ∃ item ∈ effective nTime mapAlerts, alert.cancels nTime item.2 = false ∧
        item.2.cancels nTime alert = true := by
  rw [List.any_eq_true]
  constructor
  · rintro ⟨item, hitem, hcancels⟩
    obtain ⟨hold, hleft, heffect⟩ := mem_keptAlerts.1 hitem
    exact ⟨item, List.mem_filter.2 ⟨hold, heffect⟩, hleft, hcancels⟩
  · rintro ⟨item, hitem, hleft, hcancels⟩
    obtain ⟨hold, heffect⟩ := List.mem_filter.1 hitem
    exact ⟨item, mem_keptAlerts.2 ⟨hold, hleft, heffect⟩, hcancels⟩

/-- **A refused alert cancels nothing**, unless it has cancelled something before it was found to be
cancelled itself. -/
theorem refused_cancels_nothing_iff (hash : List UInt8 → H) (verify : H → List UInt8 → Bool)
    (mapAlerts : List (H × CAlert)) (msg : AlertMsg) :
    ((processAlert hash verify mapAlerts msg).2 = .refused →
      effective msg.nTime (processAlert hash verify mapAlerts msg).1 =
        effective msg.nTime mapAlerts) ↔ ¬ CancelsInVain hash verify mapAlerts msg := by
  constructor
  · rintro h ⟨alert, hpasses, hcancelled, item, hitem, hcancels⟩
    rw [processAlert_of_passes hpasses, if_pos ((any_keptAlerts msg.nTime).2 hcancelled)] at h
    have hkept := (effective_keptAlerts msg.nTime).symm.trans (h rfl)
    have hnot := (keptAlerts_eq_effective_iff msg.nTime).1 hkept item hitem
    rw [hcancels] at hnot
    cases hnot
  · intro h hrefused
    by_cases hpasses : ∃ alert, Passes hash verify msg alert
    · obtain ⟨alert, hpasses⟩ := hpasses
      rw [processAlert_of_passes hpasses] at hrefused ⊢
      split_ifs at hrefused ⊢ with hany
      rw [effective_keptAlerts, keptAlerts_eq_effective_iff]
      intro item hitem
      by_contra hcancels
      exact h ⟨alert, hpasses, (any_keptAlerts msg.nTime).1 hany, item, hitem,
        eq_true_of_ne_false hcancels⟩
    · rw [(processAlert_of_not_passes (not_exists.1 hpasses)).1]

/-! ## The final alert -/

/-- The alert cancels the largest ID. -/
def CAlert.CancelsFinal (alert : CAlert) : Prop := maxInt ≤ alert.nCancel ∨ maxInt ∈ alert.setCancel

/-- A message, other than that of the final alert, which passes the checks and cancels the largest
ID. -/
def Overrides (hash : List UInt8 → H) (verify : H → List UInt8 → Bool) (final : CAlert)
    (msg : AlertMsg) : Prop :=
  msg.vchMsg ≠ final.vchMsg ∧ ∃ alert, Passes hash verify msg alert ∧ alert.CancelsFinal

/-- The final alert is stored, and no other alert that is stored cancels it. -/
structure Guarded (hash : List UInt8 → H) (mapAlerts : List (H × CAlert)) (final : CAlert) : Prop where
  stored : IsStored hash mapAlerts final.vchMsg
  safe : ∀ item ∈ mapAlerts, item.2.vchMsg ≠ final.vchMsg → ¬ item.2.CancelsFinal

theorem CAlert.cancels_eq_true {nTime : ℤ} {this : CAlert} (hid : alert.nID = maxInt) :
    this.cancels nTime alert = true ↔ this.isInEffect nTime = true ∧ this.CancelsFinal := by
  rw [CAlert.cancels, hid, Bool.and_eq_true, Bool.or_eq_true, decide_eq_true_eq,
    List.contains_iff_mem]
  rfl

theorem CAlert.nExpiration_of_isFinal (h : final.isFinal = true) : final.nExpiration = maxInt := by
  simp only [CAlert.isFinal, Bool.and_eq_true, decide_eq_true_eq] at h
  exact h.1.1.1.1.1.1

theorem CAlert.nCancel_of_isFinal (h : final.isFinal = true) : final.nCancel = maxInt - 1 := by
  simp only [CAlert.isFinal, Bool.and_eq_true, decide_eq_true_eq] at h
  exact h.1.1.1.1.1.2

omit [DecidableEq H] in
/-- Two alerts with the same message have the same fields. -/
theorem Consistent.fields_eq (h : Consistent hash mapAlerts)
    (hfinal : CUnsignedAlert.unserialize final.vchMsg = some final.toCUnsignedAlert)
    {item : H × CAlert} (hitem : item ∈ mapAlerts) (heq : item.2.vchMsg = final.vchMsg) :
    item.2.toCUnsignedAlert = final.toCUnsignedAlert := by
  have hread := (h item hitem).2
  rw [heq, hfinal] at hread
  exact (Option.some.inj hread).symm

/-- What is inserted is stored, unless another message has the same hash. -/
theorem isStored_insertAlert (hinj : Function.Injective hash) (h : Consistent hash mapAlerts) :
    IsStored hash (insertAlert mapAlerts (hash final.vchMsg, final)) final.vchMsg := by
  by_cases hany : mapAlerts.any (·.1 = hash final.vchMsg) = true
  · rw [insertAlert, if_pos hany]
    obtain ⟨item, hitem, hkey⟩ := List.any_eq_true.mp hany
    have hkey := of_decide_eq_true hkey
    exact ⟨item, hitem, hkey, hinj ((h item hitem).1.symm.trans hkey)⟩
  · rw [insertAlert, if_neg hany]
    exact ⟨_, List.mem_append_right _ (List.mem_singleton_self _), rfl, rfl⟩

/-- When the final alert has been accepted, what is left does not cancel it. -/
theorem guarded_of_accepted (hinj : Function.Injective hash) (h : Consistent hash mapAlerts)
    (hpasses : Passes hash verify msg final) (hid : final.nID = maxInt)
    (haccepted : (processAlert hash verify mapAlerts msg).2 = .accepted) :
    Guarded hash (processAlert hash verify mapAlerts msg).1 final := by
  rw [processAlert_of_passes hpasses] at haccepted ⊢
  by_cases hany : (keptAlerts mapAlerts msg.nTime final).any (·.2.cancels msg.nTime final) = true
  · rw [if_pos hany] at haccepted
    cases haccepted
  · have hkept : Consistent hash (keptAlerts mapAlerts msg.nTime final) :=
      fun item hitem ↦ h item (mem_keptAlerts.mp hitem).1
    rw [if_neg hany]
    refine ⟨isStored_insertAlert hinj hkept, fun item hitem hne hcancels ↦ ?_⟩
    obtain hold | rfl := mem_insertAlert hitem
    · refine hany (List.any_eq_true.mpr ⟨item, hold, ?_⟩)
      exact (CAlert.cancels_eq_true hid).mpr ⟨(mem_keptAlerts.mp hold).2.2, hcancels⟩
    · exact hne rfl

/-- The final alert stays, with any message that does not override it. -/
theorem Guarded.step (hinj : Function.Injective hash) (h : Consistent hash mapAlerts)
    (hguarded : Guarded hash mapAlerts final) (hid : final.nID = maxInt)
    (hfinal : final.isFinal = true)
    (hread : CUnsignedAlert.unserialize final.vchMsg = some final.toCUnsignedAlert)
    (htime : msg.nTime < maxInt) (hgood : ¬ Overrides hash verify final msg) :
    Guarded hash (processAlert hash verify mapAlerts msg).1 final := by
  by_cases hpasses : ∃ alert, Passes hash verify msg alert
  · obtain ⟨alert, hpasses⟩ := hpasses
    obtain ⟨hvchMsg, hfields⟩ := checkSignature_ok hpasses.read
    have hsafe : ∀ item ∈ keptAlerts mapAlerts msg.nTime alert,
        item.2.vchMsg ≠ final.vchMsg → ¬ item.2.CancelsFinal :=
      fun item hitem ↦ hguarded.safe item (mem_keptAlerts.mp hitem).1
    by_cases hself : msg.vchMsg = final.vchMsg
    · -- the final alert again: it may remove itself, but then it is accepted
      have heq : alert.toCUnsignedAlert = final.toCUnsignedAlert := by
        rw [hself, hread] at hfields
        exact (Option.some.inj hfields).symm
      have hid' : alert.nID = maxInt := by rw [heq, hid]
      have hkept : Consistent hash (keptAlerts mapAlerts msg.nTime alert) :=
        fun item hitem ↦ h item (mem_keptAlerts.mp hitem).1
      rw [processAlert_of_passes hpasses, if_neg]
      · refine ⟨?_, fun item hitem hne ↦ ?_⟩
        · rw [← hself, ← hvchMsg]
          exact isStored_insertAlert hinj hkept
        · obtain hold | rfl := mem_insertAlert hitem
          · exact hsafe item hold hne
          · exact absurd (hvchMsg.trans hself) hne
      · intro hany
        obtain ⟨item, hitem, hcancels⟩ := List.any_eq_true.mp hany
        obtain ⟨hold, hleft, -⟩ := mem_keptAlerts.mp hitem
        have hcancelsFinal := ((CAlert.cancels_eq_true hid').mp hcancels).2
        by_cases hsame : item.2.vchMsg = final.vchMsg
        · -- an alert that cancels itself has been removed
          have hitemEq := h.fields_eq hread hold hsame
          have halert : alert.CancelsFinal := by
            rw [CAlert.CancelsFinal, heq, ← hitemEq]
            exact hcancelsFinal
          have hidItem : item.2.nID = maxInt := by rw [hitemEq, hid]
          have hcancelled := (CAlert.cancels_eq_true hidItem).mpr ⟨hpasses.inEffect, halert⟩
          rw [hleft] at hcancelled
          exact Bool.false_ne_true hcancelled
        · exact hsafe item hitem hsame hcancelsFinal
    · have hnot : ¬ alert.CancelsFinal := fun hcancels ↦ hgood ⟨hself, alert, hpasses, hcancels⟩
      have hstored : IsStored hash (keptAlerts mapAlerts msg.nTime alert) final.vchMsg := by
        obtain ⟨item, hitem, hkey, hsame⟩ := hguarded.stored
        have hitemEq := h.fields_eq hread hitem hsame
        have hidItem : item.2.nID = maxInt := by rw [hitemEq, hid]
        refine ⟨item, mem_keptAlerts.mpr ⟨hitem, ?_, ?_⟩, hkey, hsame⟩
        · rw [← Bool.not_eq_true, CAlert.cancels_eq_true hidItem]
          exact fun hcancels ↦ hnot hcancels.2
        · refine decide_eq_true ?_
          rw [hitemEq, CAlert.nExpiration_of_isFinal hfinal]
          exact htime
      rw [processAlert_of_passes hpasses]
      split_ifs
      · exact ⟨hstored, hsafe⟩
      · refine ⟨?_, fun item hitem hne ↦ ?_⟩
        · obtain ⟨item, hitem, hkey, hsame⟩ := hstored
          exact ⟨item, mem_insertAlert_of_mem hitem, hkey, hsame⟩
        · obtain hold | rfl := mem_insertAlert hitem
          · exact hsafe item hold hne
          · exact hnot
  · rw [(processAlert_of_not_passes (not_exists.mp hpasses)).1]
    exact hguarded

/-- While the final alert is stored, no message with a smaller ID is accepted that does not override
it. -/
theorem Guarded.refuses (h : Consistent hash mapAlerts) (hguarded : Guarded hash mapAlerts final)
    (hid : final.nID = maxInt) (hfinal : final.isFinal = true)
    (hread : CUnsignedAlert.unserialize final.vchMsg = some final.toCUnsignedAlert)
    (htime : msg.nTime < maxInt) (hgood : ¬ Overrides hash verify final msg)
    (hcheck : CAlert.checkSignature hash verify msg = .ok alert) (hsmall : alert.nID < maxInt) :
    (processAlert hash verify mapAlerts msg).2 ≠ .accepted := by
  by_cases hpasses : ∃ alert, Passes hash verify msg alert
  · obtain ⟨this, hpasses⟩ := hpasses
    obtain rfl : this = alert := Except.ok.inj (hpasses.read.symm.trans hcheck)
    obtain ⟨hvchMsg, hfields⟩ := checkSignature_ok hcheck
    have hself : msg.vchMsg ≠ final.vchMsg := by
      intro hself
      rw [hself, hread] at hfields
      rw [← Option.some.inj hfields, hid] at hsmall
      exact lt_irrefl _ hsmall
    have hnot : ¬ this.CancelsFinal := fun hcancels ↦ hgood ⟨hself, this, hpasses, hcancels⟩
    obtain ⟨item, hitem, -, hsame⟩ := hguarded.stored
    have hitemEq := h.fields_eq hread hitem hsame
    have hidItem : item.2.nID = maxInt := by rw [hitemEq, hid]
    have heffect : item.2.isInEffect msg.nTime = true := by
      refine decide_eq_true ?_
      rw [hitemEq, CAlert.nExpiration_of_isFinal hfinal]
      exact htime
    have hkept : item ∈ keptAlerts mapAlerts msg.nTime this := by
      refine mem_keptAlerts.mpr ⟨hitem, ?_, heffect⟩
      rw [← Bool.not_eq_true, CAlert.cancels_eq_true hidItem]
      exact fun hcancels ↦ hnot hcancels.2
    -- the final alert cancels every smaller ID
    have hcancels : item.2.cancels msg.nTime this = true := by
      have hle : this.nID ≤ item.2.nCancel := by
        rw [hitemEq, CAlert.nCancel_of_isFinal hfinal]
        omega
      rw [CAlert.cancels, heffect, decide_eq_true hle]
      rfl
    rw [processAlert_of_passes hpasses, if_pos (List.any_eq_true.mpr ⟨item, hkept, hcancels⟩)]
    exact AlertOutcome.noConfusion
  · exact (processAlert_of_not_passes (not_exists.mp hpasses)).2

/-- A message that overrides the final alert removes it. -/
theorem not_isStored_of_overrides (h : Consistent hash mapAlerts) (hid : final.nID = maxInt)
    (hread : CUnsignedAlert.unserialize final.vchMsg = some final.toCUnsignedAlert)
    (hbad : Overrides hash verify final msg) :
    ¬ IsStored hash (processAlert hash verify mapAlerts msg).1 final.vchMsg := by
  obtain ⟨hne, alert, hpasses, hcancels⟩ := hbad
  have hgone : ∀ item ∈ keptAlerts mapAlerts msg.nTime alert, item.2.vchMsg ≠ final.vchMsg := by
    intro item hitem hsame
    obtain ⟨hold, hleft, -⟩ := mem_keptAlerts.mp hitem
    have hidItem : item.2.nID = maxInt := by rw [h.fields_eq hread hold hsame, hid]
    rw [(CAlert.cancels_eq_true hidItem).mpr ⟨hpasses.inEffect, hcancels⟩] at hleft
    exact Bool.false_ne_true hleft.symm
  rintro ⟨item, hitem, -, hsame⟩
  rw [processAlert_of_passes hpasses] at hitem
  split_ifs at hitem
  · exact hgone item hitem hsame
  · obtain hold | rfl := mem_insertAlert hitem
    · exact hgone item hold hsame
    · exact hne ((checkSignature_ok hpasses.read).1.symm.trans hsame)

/-! ## Every run -/

theorem passes_of_accepted (hread : CAlert.checkSignature hash verify msg = .ok alert)
    (haccepted : (processAlert hash verify mapAlerts msg).2 = .accepted) :
    Passes hash verify msg alert := by
  by_contra hnot
  refine (processAlert_of_not_passes (fun this hpasses ↦ hnot ?_)).2 haccepted
  obtain rfl : this = alert := Except.ok.inj (hpasses.read.symm.trans hread)
  exact hpasses

theorem guarded_processAlerts (hinj : Function.Injective hash) {before after : List AlertMsg}
    (hpasses : Passes hash verify msg final) (hid : final.nID = maxInt)
    (haccepted : (processAlert hash verify (processAlerts hash verify before) msg).2 = .accepted)
    (htimes : ∀ msg' ∈ after, msg'.nTime < maxInt)
    (hgood : ∀ msg' ∈ after, ¬ Overrides hash verify final msg') :
    Guarded hash (processAlerts hash verify (before ++ [msg] ++ after)) final := by
  obtain ⟨hvchMsg, hfields⟩ := checkSignature_ok hpasses.read
  rw [← hvchMsg] at hfields
  induction after using List.reverseRecOn with
  | nil =>
    rw [List.append_nil, processAlerts_append]
    exact guarded_of_accepted hinj (consistent_processAlerts before) hpasses hid haccepted
  | append_singleton after msg' ih =>
    rw [List.forall_mem_append] at htimes hgood
    rw [← List.append_assoc, processAlerts_append]
    exact (ih htimes.1 hgood.1).step hinj (consistent_processAlerts _) hid (hpasses.final hid)
      hfields (htimes.2 msg' (List.mem_singleton_self msg'))
      (hgood.2 msg' (List.mem_singleton_self msg'))

/-- **The final alert stays** stored, and no smaller ID is accepted after it, exactly when no message
after it overrides it. -/
theorem finalAlert_stays_iff (hinj : Function.Injective hash) (before after : List AlertMsg)
    (hread : CAlert.checkSignature hash verify msg = .ok final) (hid : final.nID = maxInt)
    (haccepted : (processAlert hash verify (processAlerts hash verify before) msg).2 = .accepted)
    (htimes : ∀ msg' ∈ after, msg'.nTime < maxInt) :
    ((∀ later, later <+: after →
        IsStored hash (processAlerts hash verify (before ++ [msg] ++ later)) msg.vchMsg) ∧
      ∀ later msg' alert, later ++ [msg'] <+: after →
        CAlert.checkSignature hash verify msg' = .ok alert → alert.nID < maxInt →
        (processAlert hash verify (processAlerts hash verify (before ++ [msg] ++ later)) msg').2 ≠
          .accepted) ↔
      ∀ msg' ∈ after, ¬ Overrides hash verify final msg' := by
  have hpasses := passes_of_accepted hread haccepted
  obtain ⟨hvchMsg, hfields⟩ := checkSignature_ok hread
  rw [← hvchMsg] at hfields ⊢
  constructor
  · rintro ⟨hstored, -⟩ msg' hmem hbad
    obtain ⟨l, r, rfl⟩ := List.append_of_mem hmem
    have hinitial : l ++ [msg'] <+: l ++ msg' :: r := ⟨r, by rw [List.append_assoc]; rfl⟩
    have hconsistent : Consistent hash (processAlerts hash verify (before ++ [msg] ++ l)) :=
      consistent_processAlerts _
    have hlost := not_isStored_of_overrides hconsistent hid hfields hbad
    rw [← processAlerts_append, List.append_assoc] at hlost
    exact hlost (hstored (l ++ [msg']) hinitial)
  · intro hgood
    have hguarded : ∀ later, later <+: after →
        Guarded hash (processAlerts hash verify (before ++ [msg] ++ later)) final :=
      fun later hinitial ↦ guarded_processAlerts hinj hpasses hid haccepted
        (fun msg' hmem ↦ htimes msg' (hinitial.subset hmem))
        fun msg' hmem ↦ hgood msg' (hinitial.subset hmem)
    refine ⟨fun later hinitial ↦ (hguarded later hinitial).stored, ?_⟩
    intro later msg' alert hinitial hcheck hsmall
    have hmem : msg' ∈ after :=
      hinitial.subset (List.mem_append_right _ (List.mem_singleton_self msg'))
    exact (hguarded later ((List.prefix_append _ _).trans hinitial)).refuses
      (consistent_processAlerts _) hid (hpasses.final hid) hfields (htimes msg' hmem)
      (hgood msg' hmem) hcheck hsmall

end

/-! ## An alert that overrides the final one -/

namespace Sample

def finalFields : CUnsignedAlert where
  nVersion := 1
  nRelayUntil := maxInt
  nExpiration := maxInt
  nID := maxInt
  nCancel := maxInt - 1
  setCancel := []
  nMinVer := 0
  nMaxVer := maxInt
  setSubVer := []
  nPriority := maxInt
  strComment := []
  strStatusBar := ascii "URGENT: Alert key compromised, upgrade required"
  strReserved := []

/-- An ordinary alert, which cancels the IDs up to the given one. -/
def alertFields (nCancel : ℤ) : CUnsignedAlert where
  nVersion := 1
  nRelayUntil := 2000
  nExpiration := 2000
  nID := 7
  nCancel := nCancel
  setCancel := []
  nMinVer := 0
  nMaxVer := maxInt
  setSubVer := []
  nPriority := 1
  strComment := []
  strStatusBar := ascii "everything is OK"
  strReserved := []

def alertMsg (fields : CUnsignedAlert) : AlertMsg := ⟨CUnsignedAlert.codec.put fields, [], 1000⟩

/-- Every signature is good, and the message is its own hash. -/
def anySig : List UInt8 → List UInt8 → Bool := fun _ _ ↦ true

def finalAlert : CAlert :=
  { finalFields with vchMsg := (alertMsg finalFields).vchMsg, vchSig := [] }

theorem checkSignature_alertMsg {fields : CUnsignedAlert}
    (h : CUnsignedAlert.unserialize (alertMsg fields).vchMsg = some fields) :
    CAlert.checkSignature id anySig (alertMsg fields) =
      .ok { fields with vchMsg := (alertMsg fields).vchMsg, vchSig := [] } := by
  unfold CAlert.checkSignature
  rw [h]
  rfl

theorem checkSignature_final :
    CAlert.checkSignature id anySig (alertMsg finalFields) = .ok finalAlert :=
  checkSignature_alertMsg (by decide +kernel)

end Sample

/-- The final alert, and then an alert that leaves it alone. -/
theorem finalAlert_stays_iff_sample :
    ((∀ later, later <+: [Sample.alertMsg (Sample.alertFields 3)] →
        IsStored id (processAlerts id Sample.anySig
          ([] ++ [Sample.alertMsg Sample.finalFields] ++ later))
          (Sample.alertMsg Sample.finalFields).vchMsg) ∧
      ∀ later msg' alert, later ++ [msg'] <+: [Sample.alertMsg (Sample.alertFields 3)] →
        CAlert.checkSignature id Sample.anySig msg' = .ok alert → alert.nID < maxInt →
        (processAlert id Sample.anySig (processAlerts id Sample.anySig
          ([] ++ [Sample.alertMsg Sample.finalFields] ++ later)) msg').2 ≠ .accepted) ↔
      ∀ msg' ∈ [Sample.alertMsg (Sample.alertFields 3)],
        ¬ Overrides id Sample.anySig Sample.finalAlert msg' :=
  finalAlert_stays_iff Function.injective_id [] _ Sample.checkSignature_final rfl (by decide +kernel)
    (by decide)

/-- An alert with a smaller ID that cancels the largest one is accepted, and the final alert is
gone. -/
theorem not_finalAlert_stays_of_override :
    (processAlert id Sample.anySig [] (Sample.alertMsg Sample.finalFields)).2 = .accepted ∧
      (Sample.alertFields maxInt).nID < Sample.finalFields.nID ∧
      (processAlert id Sample.anySig (processAlerts id Sample.anySig
        [Sample.alertMsg Sample.finalFields]) (Sample.alertMsg (Sample.alertFields maxInt))).2 =
          .accepted ∧
      ¬ IsStored id (processAlerts id Sample.anySig
        [Sample.alertMsg Sample.finalFields, Sample.alertMsg (Sample.alertFields maxInt)])
        (Sample.alertMsg Sample.finalFields).vchMsg := by
  refine ⟨by decide +kernel, by decide, by decide +kernel, ?_⟩
  rintro ⟨item, hitem, -, hsame⟩
  have hmsgs : (processAlerts id Sample.anySig
      [Sample.alertMsg Sample.finalFields, Sample.alertMsg (Sample.alertFields maxInt)]).map
        (·.2.vchMsg) = [(Sample.alertMsg (Sample.alertFields maxInt)).vchMsg] := by
    decide +kernel
  have hmem := List.mem_map_of_mem (f := (·.2.vchMsg)) hitem
  rw [hmsgs, List.mem_singleton, hsame] at hmem
  exact absurd hmem (by decide +kernel)

namespace Sample

/-- An alert with an ID that cancels the IDs up to another one. -/
def alertUpTo (nID nCancel : ℤ) : CAlert :=
  { alertFields nCancel with nID := nID, vchMsg := [], vchSig := [] }

end Sample

/-- The alert 7 cancels the alert 5 and is then found to be cancelled by the alert 20. -/
theorem not_refused_cancels_nothing :
    (processAlert id Sample.anySig [([1], Sample.alertUpTo 5 0), ([2], Sample.alertUpTo 20 15)]
        (Sample.alertMsg (Sample.alertFields 5))).2 = .refused ∧
      effective 1000 (processAlert id Sample.anySig
          [([1], Sample.alertUpTo 5 0), ([2], Sample.alertUpTo 20 15)]
          (Sample.alertMsg (Sample.alertFields 5))).1 ≠
        effective 1000 [([1], Sample.alertUpTo 5 0), ([2], Sample.alertUpTo 20 15)] :=
  ⟨by decide +kernel, by decide +kernel⟩

end Bws
