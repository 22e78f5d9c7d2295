import Bws.AddrCheck
import Bws.NetGroup

/-!
# How much of the tables a range may take

The manager is to keep anybody with few ranges of addresses from filling its tables.  What the ranges
take is bounded in every state that it comes to: the addresses of a group are in at most eight buckets
of the tried table, and all that the sources of a group have told is in at most 64 buckets of the new
table (`CAddrMan.run_limits`), with all that is tunnelled counted for the network that it comes from
(`CAddrMan.run_limits_ipv4`).
-/

namespace Bws

namespace CAddrMan

variable {A : AddrParams} {nKey : BitVec 256} {s s' s'' : CAddrMan}

/-! ## What the manager has been told -/

/-- Runs of the manager, with the operations. -/
inductive Runs (A : AddrParams) (nKey : BitVec 256) : List Op → CAddrMan → Prop
  | init : Runs A nKey [] (init nKey)
  | step {ops : List Op} {s s' : CAddrMan} {op : Op} : Runs A nKey ops s → op.Timely →
      s.step A op = .ok s' → Runs A nKey (ops ++ [op]) s'

theorem Runs.isReachable {ops : List Op} (h : Runs A nKey ops s) : Reachable A nKey s := by
  induction h with
  | init => exact .init
  | step _ htimely hstep ih => exact .step ih htimely hstep

/-- Somebody has told of an address. -/
def Tells (ops : List Op) (ip source : CNetAddr) : Prop :=
  ∃ addr nTimePenalty nNow nNowLater nRand,
    Op.add addr source nTimePenalty nNow nNowLater nRand ∈ ops ∧ addr.ip = ip

theorem Tells.append {ops : List Op} {ip source : CNetAddr} (h : Tells ops ip source) (op : Op) :
    Tells (ops ++ [op]) ip source := by
  obtain ⟨addr, nTimePenalty, nNow, nNowLater, nRand, hmem, hip⟩ := h
  exact ⟨addr, nTimePenalty, nNow, nNowLater, nRand, List.mem_append_left _ hmem, hip⟩

/-- The slot of the new table that an address is put into when a source tells of it. -/
def toldSlot (A : AddrParams) (nKey : BitVec 256) (e : CAddrInfo) (source : CNetAddr) : NewSlot :=
  e.newSlot A nKey (e.getNewBucket A nKey source)

theorem toldSlot_congr {e e' : CAddrInfo} (h : e.toCService = e'.toCService) (source : CNetAddr) :
    toldSlot A nKey e source = toldSlot A nKey e' source := by
  rw [toldSlot, toldSlot, CAddrInfo.newSlot_congr h, CAddrInfo.getNewBucket, CAddrInfo.getNewBucket, h]

/-- **What is in the tables has been told**: every entry by its source, and what is in a slot of the
new table by somebody for whom it has that slot. -/
structure Traced (A : AddrParams) (told : CNetAddr → CNetAddr → Prop) (s : CAddrMan) : Prop where
  source : ∀ nId e, s.entry nId = some e → told e.ip e.source
  new : ∀ p e, s.vvNew p ≠ -1 → s.entry (s.vvNew p) = some e →
    ∃ source, told e.ip source ∧ p = toldSlot A s.nKey e source

theorem Traced.mono {told told' : CNetAddr → CNetAddr → Prop} (h : Traced A told s)
    (htold : ∀ ip source, told ip source → told' ip source) : Traced A told' s where
  source nId e he := htold _ _ (h.source nId e he)
  new p e hp he := by
    obtain ⟨source, hsource, hslot⟩ := h.new p e hp he
    exact ⟨source, htold _ _ hsource, hslot⟩

/-! ## Moves -/

/-- Entries are changed, but not whose they are and who told of them; slots of the new table are
cleared, and filled with what has been told. -/
structure Moves (A : AddrParams) (told : CNetAddr → CNetAddr → Prop) (s s' : CAddrMan) : Prop where
  nKey : s'.nKey = s.nKey
  entry : ∀ nId e', s'.entry nId = some e' →
    ∃ e, s.entry nId = some e ∧ e'.toCService = e.toCService ∧ e'.source = e.source
  new : ∀ p e', s'.vvNew p ≠ -1 → s'.entry (s'.vvNew p) = some e' → s'.vvNew p = s.vvNew p ∨
    ∃ source, told e'.ip source ∧ p = toldSlot A s.nKey e' source

section

variable {told : CNetAddr → CNetAddr → Prop}

theorem Moves.refl (s : CAddrMan) : Moves A told s s where
  nKey := rfl
  entry _ e' he' := ⟨e', he', rfl, rfl⟩
  new _ _ _ _ := .inl rfl

theorem Moves.trans (h : Moves A told s s') (h' : Moves A told s' s'') : Moves A told s s'' where
  nKey := h'.nKey.trans h.nKey
  entry nId e'' he'' := by
    obtain ⟨e', he', hservice', hsource'⟩ := h'.entry nId e'' he''
    obtain ⟨e, he, hservice, hsource⟩ := h.entry nId e' he'
    exact ⟨e, he, hservice'.trans hservice, hsource'.trans hsource⟩
  new p e'' hp he'' := by
    rcases h'.new p e'' hp he'' with hsame | ⟨source, htold, hslot⟩
    · obtain ⟨e', he', hservice', -⟩ := h'.entry _ _ he''
      rw [hsame] at hp he'
      rcases h.new p e' hp he' with hsame' | ⟨source, htold, hslot⟩
      · exact .inl (hsame.trans hsame')
      · refine .inr ⟨source, ?_, hslot.trans (toldSlot_congr hservice'.symm source)⟩
        rw [congrArg CService.ip hservice']
        exact htold
    · exact .inr ⟨source, htold, h.nKey ▸ hslot⟩

/-- Moves keep what is in the tables traced. -/
theorem Traced.moves (h : Traced A told s) (hmoves : Moves A told s s') : Traced A told s' where
  source nId e' he' := by
    obtain ⟨e, he, hservice, hsource⟩ := hmoves.entry nId e' he'
    rw [congrArg CService.ip hservice, hsource]
    exact h.source nId e he
  new p e' hp he' := by
    rw [hmoves.nKey]
    rcases hmoves.new p e' hp he' with hsame | hfilled
    · obtain ⟨e, he, hservice, -⟩ := hmoves.entry _ _ he'
      rw [hsame] at hp he
      obtain ⟨source, htold, hslot⟩ := h.new p e hp he
      refine ⟨source, ?_, hslot.trans (toldSlot_congr hservice.symm source)⟩
      rw [congrArg CService.ip hservice]
      exact htold
    · exact hfilled

/-- What the tables, the counts and the order are does not matter to the entries. -/
theorem Moves.same (hkey : s'.nKey = s.nKey) (hentry : s'.entry = s.entry) (hnew : s'.vvNew = s.vvNew) :
    Moves A told s s' where
  nKey := hkey
  entry _ e' he' := ⟨e', hentry ▸ he', rfl, rfl⟩
  new p _ _ _ := .inl (congrFun hnew p)

theorem Moves.modifyInfo (s : CAddrMan) (nId : ℤ) (f : CAddrInfo → CAddrInfo)
    (hstrip : ∀ info, { f info with nRandomPos := 0 } = f { info with nRandomPos := 0 })
    (hservice : ∀ info, (f info).toCService = info.toCService)
    (hsource : ∀ info, (f info).source = info.source) : Moves A told s (s.modifyInfo nId f) where
  nKey := rfl
  entry id e' he' := by
    rw [entry_modifyInfo hstrip] at he'
    by_cases hid : id = nId
    · rw [hid, Function.update_self] at he'
      obtain ⟨e, he, rfl⟩ := Option.map_eq_some_iff.1 he'
      exact ⟨e, hid ▸ he, hservice e, hsource e⟩
    · rw [Function.update_of_ne hid] at he'
      exact ⟨e', he', rfl, rfl⟩
  new _ _ _ _ := .inl rfl

/-- A slot is cleared. -/
theorem Moves.clear (s : CAddrMan) (p : NewSlot) : Moves A told s (s.setNew p (-1)) where
  nKey := rfl
  entry _ e' he' := ⟨e', he', rfl, rfl⟩
  new q e' hq _ := by
    have hne : q ≠ p := by
      rintro rfl
      exact hq (Function.update_self ..)
    exact .inl (Function.update_of_ne hne ..)

/-- A slot is filled with an entry that somebody has told of. -/
theorem Moves.fill {p : NewSlot} {nId : ℤ} (h : ∀ e, s.entry nId = some e →
    ∃ source, told e.ip source ∧ p = toldSlot A s.nKey e source) :
    Moves A told s (s.setNew p nId) where
  nKey := rfl
  entry _ e' he' := ⟨e', he', rfl, rfl⟩
  new q e' _ he' := by
    by_cases hq : q = p
    · have hname : (s.setNew p nId).vvNew q = nId := by
        rw [hq]
        exact Function.update_self ..
      rw [hname] at he'
      obtain ⟨source, htold, hp⟩ := h e' he'
      exact .inr ⟨source, htold, hq.trans hp⟩
    · exact .inl (Function.update_of_ne hq ..)

theorem Moves.delete {nId : ℤ} (h : s.delete nId = .ok s') : Moves A told s s' := by
  obtain ⟨-, -, -, hdeleted, -⟩ := delete_eq_ok h
  refine ⟨hdeleted.nKey, fun id e' he' ↦ ?_, fun p _ _ _ ↦ .inl (congrFun hdeleted.vvNew p)⟩
  rw [hdeleted.entry] at he'
  by_cases hid : id = nId
  · rw [hid, Function.update_self] at he'
    cases he'
  · rw [Function.update_of_ne hid] at he'
    exact ⟨e', he', rfl, rfl⟩

/-! ## The operations move -/

theorem Moves.clearNew {p : NewSlot} (h : s.clearNew p = .ok s') : Moves A told s s' := by
  rw [CAddrMan.clearNew] at h
  split_ifs at h with hp
  · cases h
    exact .refl s
  · dsimp only at h
    split at h
    · cases h
    · obtain ⟨⟨⟩, -, h⟩ := bind_eq_ok.1 h
      have hmoves : Moves A told s _ := (Moves.modifyInfo s (s.vvNew p)
        (fun info ↦ { info with nRefCount := info.nRefCount - 1 }) (fun _ ↦ rfl) (fun _ ↦ rfl)
        fun _ ↦ rfl).trans (.clear _ p)
      split_ifs at h
      · exact hmoves.trans (.delete h)
      · cases h
        exact hmoves

theorem Moves.removeRefs (info : CAddrInfo) (nId : ℤ) (buckets : List (Fin 1024)) :
    ∀ s, Moves A told s (removeRefs A info nId buckets s) := by
  induction buckets with
  | nil => exact .refl
  | cons bucket buckets ih =>
    intro s
    rw [CAddrMan.removeRefs]
    split_ifs
    · exact ((Moves.clear s (info.newSlot A s.nKey bucket)).trans (.modifyInfo _ nId
        (fun info ↦ { info with nRefCount := info.nRefCount - 1 }) (fun _ ↦ rfl) (fun _ ↦ rfl)
        fun _ ↦ rfl)).trans (ih _)
    · exact ih s

/-- What is evicted from the tried table goes to the slot for its source. -/
theorem Moves.evict {p : TriedSlot} (htraced : Traced A told s) (h : evict A s p = .ok s') :
    Moves A told s s' := by
  rw [CAddrMan.evict] at h
  split_ifs at h with hp
  · cases h
    exact .refl s
  · dsimp only at h
    split at h
    · cases h
    · rename_i infoOld hinfo
      obtain ⟨s₂, hs₂, h⟩ := bind_eq_ok.1 h
      obtain ⟨⟨⟩, -, h⟩ := bind_eq_ok.1 h
      cases h
      have hfreed : Moves A told s { (s.modifyInfo (s.vvTried p) fun info ↦
          { info with fInTried := false }).setTried p (-1) with nTried := s.nTried - 1 } :=
        (Moves.modifyInfo s (s.vvTried p) (fun info ↦ { info with fInTried := false }) (fun _ ↦ rfl)
          (fun _ ↦ rfl) fun _ ↦ rfl).trans (.same rfl rfl rfl)
      have hcleared := (hfreed.trans (.clearNew hs₂)).trans (.modifyInfo s₂ (s.vvTried p)
        (fun info ↦ { info with nRefCount := 1 }) (fun _ ↦ rfl) (fun _ ↦ rfl) fun _ ↦ rfl)
      refine (hcleared.trans (.fill fun e' he' ↦ ?_)).trans (.same rfl rfl rfl)
      obtain ⟨e, he, hservice, -⟩ := hcleared.entry _ e' he'
      have hold : e = { infoOld with nRandomPos := 0 } :=
        Option.some.inj (he.symm.trans (entry_of_getElem? hinfo))
      refine ⟨infoOld.source, ?_, ?_⟩
      · rw [congrArg CService.ip hservice]
        have htold := htraced.source _ e he
        rw [hold] at htold ⊢
        exact htold
      · rw [hcleared.nKey, toldSlot_congr hservice, hold]
        rfl

theorem Moves.makeTried {info : CAddrInfo} {nId : ℤ} (htraced : Traced A told s)
    (h : makeTried A s info nId = .ok s') : Moves A told s s' := by
  have hremoved : Moves A told s _ := .removeRefs info nId (List.finRange 1024) s
  rw [CAddrMan.makeTried] at h
  generalize CAddrMan.removeRefs A info nId (List.finRange 1024) s = s₀ at h hremoved
  obtain ⟨⟨⟩, -, h⟩ := bind_eq_ok.1 h
  obtain ⟨s₁, hs₁, h⟩ := bind_eq_ok.1 h
  obtain ⟨⟨⟩, -, h⟩ := bind_eq_ok.1 h
  cases h
  have hcounted : Moves A told s { s₀ with nNew := s₀.nNew - 1 } :=
    hremoved.trans (.same rfl rfl rfl)
  have hevicted := hcounted.trans (.evict (htraced.moves hcounted) hs₁)
  have htried : Moves A told s (s₁.setTried (info.triedSlot A s₀.nKey) nId) :=
    hevicted.trans (.same rfl rfl rfl)
  exact (htried.trans (.modifyInfo _ nId (fun info ↦ { info with fInTried := true })
    (fun _ ↦ rfl) (fun _ ↦ rfl) fun _ ↦ rfl)).trans (.same rfl rfl rfl)

theorem Moves.good_ {addr : CService} {nTime : Int64} (htraced : Traced A told s)
    (h : good_ A s addr nTime = .ok s') : Moves A told s s' := by
  rw [CAddrMan.good_] at h
  split at h
  · cases h
    exact .refl s
  · rename_i nId info hfind
    have hgood : Moves A told s _ := .modifyInfo s nId (CAddrInfo.good nTime)
      (fun _ ↦ rfl) (fun _ ↦ rfl) fun _ ↦ rfl
    dsimp only at h
    split_ifs at h
    · cases h
      exact .refl s
    · cases h
      exact hgood
    · cases h
      exact hgood
    · exact hgood.trans (.makeTried (htraced.moves hgood) h)

theorem Moves.touch (s : CAddrMan) (addr : CService) {f : CAddrInfo → CAddrInfo} (hf : Harmless f)
    (hsource : ∀ info, (f info).source = info.source) : Moves A told s (s.touch addr f) := by
  rw [CAddrMan.touch]
  split
  · exact .refl s
  · split_ifs
    · exact .refl s
    · exact .modifyInfo s _ f hf.strip hf.service hsource

/-- An entry is put into the slot for the source that tells of it. -/
theorem Moves.place {nId : ℤ} {info : CAddrInfo} {source : CNetAddr} {nNow : ℤ}
    (htold : ∀ e, s.entry nId = some e → e.toCService = info.toCService ∧ told e.ip source)
    (h : place A s nId info source nNow = .ok s') : Moves A told s s' := by
  rw [CAddrMan.place] at h
  dsimp only at h
  split_ifs at h
  · cases h
    exact .refl s
  · obtain ⟨s₁, hs₁, h⟩ := bind_eq_ok.1 h
    cases h
    have hcleared : Moves A told s _ := (Moves.clearNew hs₁).trans (.modifyInfo s₁ nId
      (fun info ↦ { info with nRefCount := info.nRefCount + 1 }) (fun _ ↦ rfl) (fun _ ↦ rfl)
      fun _ ↦ rfl)
    refine hcleared.trans (.fill fun e' he' ↦ ?_)
    obtain ⟨e, he, hservice, -⟩ := hcleared.entry _ e' he'
    obtain ⟨hsame, hsource⟩ := htold e he
    refine ⟨source, ?_, ?_⟩
    · rw [congrArg CService.ip hservice]
      exact hsource
    · rw [hcleared.nKey, toldSlot_congr (hservice.trans hsame)]
      rfl
  · exact .delete h
  · cases h
    exact .refl s

end

/-! ## The limits -/

/-- A new entry is in no slot. -/
theorem Traced.create {told : CNetAddr → CNetAddr → Prop} (h : Traced A told s)
    (hsound : Sound A nKey ∅ 0 s) {addr : CAddress} {source : CNetAddr} (htold : told addr.ip source) :
    Traced A told (s.create addr source) := by
  have hentry : (s.create addr source).entry = Function.update s.entry s.nIdCount
      (some { CAddrInfo.mk' addr source with nRandomPos := 0 }) := entry_enter ..
  refine ⟨fun nId e he ↦ ?_, fun p e hp he ↦ ?_⟩
  · rw [hentry] at he
    by_cases hid : nId = s.nIdCount
    · rw [hid, Function.update_self] at he
      cases he
      exact htold
    · rw [Function.update_of_ne hid] at he
      exact h.source nId e he
  · have hne : s.vvNew p ≠ s.nIdCount := by
      intro heq
      obtain ⟨e', he', -⟩ := hsound.placed.new hp
      rw [heq, hsound.indexed.entry_nIdCount] at he'
      cases he'
    rw [hentry] at he
    exact h.new p e hp ((Function.update_of_ne hne ..).symm.trans he)

/-- **`Add_`** keeps what is in the tables traced. -/
theorem Traced.add_ {told : CNetAddr → CNetAddr → Prop} (h : Traced A told s)
    (hsound : Sound A nKey ∅ 0 s) {addr : CAddress} {source : CNetAddr}
    {nTimePenalty nNow nNowLater : ℤ} {nRand : ℕ} {fNew : Bool} (htold : told addr.ip source)
    (hadd : add_ A s addr source nTimePenalty nNow nNowLater nRand = .ok (s', fNew)) :
    Traced A told s' := by
  rw [CAddrMan.add_] at hadd
  split_ifs at hadd with hroutable
  · cases hadd
    exact h
  split at hadd
  · rename_i nId pinfo hfind
    obtain ⟨hinfo, hip⟩ := hsound.indexed.find_eq_some hfind
    have hrefreshed : Moves A told s _ := .modifyInfo s nId
      (CAddrInfo.refresh addr nTimePenalty nNow) (fun _ ↦ rfl) (fun _ ↦ rfl) fun _ ↦ rfl
    dsimp only at hadd
    split_ifs at hadd
    · cases hadd
      exact h.moves hrefreshed
    · cases hadd
      exact h.moves hrefreshed
    · cases hadd
      exact h.moves hrefreshed
    · cases hadd
      exact h.moves hrefreshed
    · obtain ⟨s₁, hs₁, hadd⟩ := bind_eq_ok.1 hadd
      cases hadd
      refine h.moves (hrefreshed.trans (.place (fun e' he' ↦ ?_) hs₁))
      obtain ⟨e, he, hservice, -⟩ := hrefreshed.entry _ e' he'
      cases he.symm.trans (entry_of_getElem? hinfo)
      refine ⟨hservice, ?_⟩
      rw [congrArg CService.ip hservice]
      exact hip ▸ htold
  · obtain ⟨s₁, hs₁, hadd⟩ := bind_eq_ok.1 hadd
    cases hadd
    have hcreated := h.create hsound htold
    have htimed : Moves A told (s.create addr source) { (s.create addr source).modifyInfo
        s.nIdCount fun info ↦
          { info with nTime := UInt32.ofInt (max 0 (seconds addr.nTime - nTimePenalty)) } with
        nNew := s.nNew + 1 } :=
      (Moves.modifyInfo (s.create addr source) s.nIdCount
        (fun info ↦ { info with nTime := UInt32.ofInt (max 0 (seconds addr.nTime - nTimePenalty)) })
        (fun _ ↦ rfl) (fun _ ↦ rfl) fun _ ↦ rfl).trans (.same rfl rfl rfl)
    refine hcreated.moves (htimed.trans (.place (fun e' he' ↦ ?_) hs₁))
    obtain ⟨e, he, hservice, -⟩ := htimed.entry _ e' he'
    have hentry : (s.create addr source).entry s.nIdCount =
        some { CAddrInfo.mk' addr source with nRandomPos := 0 } := by
      rw [show (s.create addr source).entry = _ from entry_enter .., Function.update_self]
    cases he.symm.trans hentry
    refine ⟨hservice, ?_⟩
    rw [congrArg CService.ip hservice]
    exact htold

/-- **An operation** keeps what is in the tables traced. -/
theorem Traced.step {ops : List Op} {op : Op} (h : Traced A (Tells ops) s) (hsound : Sound A nKey ∅ 0 s)
    (htimely : op.Timely) (hstep : s.step A op = .ok s') : Traced A (Tells (ops ++ [op])) s' := by
  have hmono := h.mono fun ip source htells ↦ Tells.append htells op
  cases op with
  | add addr source nTimePenalty nNow nNowLater nRand =>
    cases hadd : CAddrMan.add_ A s addr source nTimePenalty nNow nNowLater nRand with
    | error =>
      rw [CAddrMan.step, hadd] at hstep
      cases hstep
    | ok r =>
      rw [CAddrMan.step, hadd] at hstep
      cases hstep
      exact hmono.add_ hsound ⟨addr, _, _, _, _, List.mem_append_right _ (List.mem_singleton_self _), rfl⟩
        hadd
  | good addr nTime => exact hmono.moves (.good_ hmono hstep)
  | attempt addr nTime =>
    cases hstep
    exact hmono.moves (.touch s addr (Harmless.attempt htimely) fun _ ↦ rfl)
  | connected addr nTime =>
    cases hstep
    exact hmono.moves (.touch s addr (Harmless.connected nTime) fun _ ↦ rfl)
  | getAddr nNow nRand =>
    cases hgiven : s.getAddr_ nNow nRand with
    | error =>
      rw [CAddrMan.step, hgiven] at hstep
      cases hstep
    | ok r =>
      rw [CAddrMan.step, hgiven] at hstep
      cases hstep
      obtain ⟨s₁, vAddr, hs₁, -, hshuffled⟩ := hsound.indexed.getAddrFrom s.vRandom.length [] le_rfl
      cases hgiven.symm.trans hs₁
      exact hmono.moves (.same hshuffled.nKey hshuffled.entry hshuffled.vvNew)
  | select fCoin drawsTried drawsNew =>
    have hsame : s' = s := by
      cases hselect : s.select_ fCoin drawsTried drawsNew with
      | error =>
        rw [CAddrMan.step, hselect] at hstep
        cases hstep
      | ok r =>
        rw [CAddrMan.step, hselect] at hstep
        cases hstep
        rfl
    rw [hsame]
    exact hmono

theorem Runs.isTraced {ops : List Op} (h : Runs A nKey ops s) : Traced A (Tells ops) s := by
  induction h with
  | init =>
    refine ⟨fun nId e he ↦ ?_, fun p e hp he ↦ absurd rfl hp⟩
    cases he
  | step hrun htimely hstep ih => exact ih.step hrun.isReachable.isSound htimely hstep

theorem triedBuckets_pos : 0 < 256 := by decide

theorem newBuckets_pos : 0 < 1024 := by decide

/-- The bucket of the tried table for a group and a remainder. -/
def triedBucketOf (A : AddrParams) (nKey : BitVec 256) (group : List UInt8) (r : ℕ) : Fin 256 :=
  modulo (A.getCheapHash (Codec.toLE 32 nKey.toNat ++ Codec.byteVector.put group ++ Codec.toLE 8 r)) 256
    triedBuckets_pos

/-- The bucket of the new table for the group of a source and a remainder. -/
def newBucketOf (A : AddrParams) (nKey : BitVec 256) (group : List UInt8) (r : ℕ) : Fin 1024 :=
  modulo (A.getCheapHash (Codec.toLE 32 nKey.toNat ++ Codec.byteVector.put group ++ Codec.toLE 8 r)) 1024
    newBuckets_pos

theorem exists_triedBucketOf (A : AddrParams) (nKey : BitVec 256) (e : CAddrInfo) :
    ∃ r < ADDRMAN_TRIED_BUCKETS_PER_GROUP,
      e.getTriedBucket A nKey = triedBucketOf A nKey (A.getGroup e.ip) r :=
  ⟨A.getCheapHash (Codec.toLE 32 nKey.toNat ++ Codec.byteVector.put e.getKey) %
    ADDRMAN_TRIED_BUCKETS_PER_GROUP, Nat.mod_lt _ (by decide), rfl⟩

theorem exists_newBucketOf (A : AddrParams) (nKey : BitVec 256) (e : CAddrInfo) (source : CNetAddr) :
    ∃ r < ADDRMAN_NEW_BUCKETS_PER_SOURCE_GROUP,
      e.getNewBucket A nKey source = newBucketOf A nKey (A.getGroup source) r :=
  ⟨A.getCheapHash (Codec.toLE 32 nKey.toNat ++ Codec.byteVector.put (A.getGroup e.ip) ++
    Codec.byteVector.put (A.getGroup source)) % ADDRMAN_NEW_BUCKETS_PER_SOURCE_GROUP,
    Nat.mod_lt _ (by decide), rfl⟩

/-- The slots of the tried table with an address of some groups. -/
def triedBy (A : AddrParams) (s : CAddrMan) (groups : Finset (List UInt8)) : Finset TriedSlot :=
  Finset.univ.filter fun p ↦ ∃ e ∈ s.entry (s.vvTried p), A.getGroup e.ip ∈ groups

/-- The slots of the new table that are taken, by what sources of some groups have told. -/
def toldBy (A : AddrParams) (s : CAddrMan) (teller : NewSlot → CNetAddr)
    (groups : Finset (List UInt8)) : Finset NewSlot :=
  Finset.univ.filter fun p ↦ s.vvNew p ≠ -1 ∧ A.getGroup (teller p) ∈ groups

/-- The addresses of some groups have at most eight buckets of the tried table for each group. -/
theorem Runs.card_triedBy {ops : List Op} (h : Runs A nKey ops s) (groups : Finset (List UInt8)) :
    (triedBy A s groups).card ≤ groups.card * (ADDRMAN_TRIED_BUCKETS_PER_GROUP * 64) := by
  have hsound := h.isReachable.isSound
  rw [← Fintype.card_fin 64]
  refine Slots.card_le_of_buckets _ (triedBucketOf A s.nKey) groups _ fun p ↦ ?_
  rw [triedBy, Finset.mem_filter]
  rintro ⟨-, e, he, hgroup⟩
  have hid : s.vvTried p ≠ -1 := hsound.placed.ne_of_some he
  obtain ⟨e', he', -, hslot⟩ := hsound.placed.tried hid
  cases he.symm.trans he'
  obtain ⟨r, hr, hbucket⟩ := exists_triedBucketOf A s.nKey e
  refine ⟨_, hgroup, r, hr, ?_⟩
  rw [← hbucket, ← hslot]
  rfl

/-- Every slot of the new table that is taken can be put down to somebody who has told of the address
there, for whom it has that slot. -/
theorem Runs.exists_teller {ops : List Op} (h : Runs A nKey ops s) :
    ∃ teller : NewSlot → CNetAddr,
      (∀ p, s.vvNew p ≠ -1 → ∃ e, s.entry (s.vvNew p) = some e ∧ Tells ops e.ip (teller p)) ∧
      ∀ groups, (toldBy A s teller groups).card ≤
        groups.card * (ADDRMAN_NEW_BUCKETS_PER_SOURCE_GROUP * 64) := by
  have hsound := h.isReachable.isSound
  have hteller : ∀ p, ∃ source, s.vvNew p ≠ -1 → ∃ e, s.entry (s.vvNew p) = some e ∧
      Tells ops e.ip source ∧ p = toldSlot A s.nKey e source := by
    intro p
    by_cases hp : s.vvNew p = -1
    · exact ⟨Vector.replicate 16 0, fun hne ↦ absurd hp hne⟩
    · obtain ⟨e, he, -⟩ := hsound.placed.new hp
      obtain ⟨source, htells, hslot⟩ := h.isTraced.new p e hp he
      exact ⟨source, fun _ ↦ ⟨e, he, htells, hslot⟩⟩
  choose teller hteller using hteller
  refine ⟨teller, fun p hp ↦ ?_, fun groups ↦ ?_⟩
  · obtain ⟨e, he, htells, -⟩ := hteller p hp
    exact ⟨e, he, htells⟩
  · rw [← Fintype.card_fin 64]
    refine Slots.card_le_of_buckets _ (newBucketOf A s.nKey) groups _ fun p ↦ ?_
    rw [toldBy, Finset.mem_filter]
    rintro ⟨-, htaken, hgroup⟩
    obtain ⟨e, -, -, hslot⟩ := hteller p htaken
    obtain ⟨r, hr, hbucket⟩ := exists_newBucketOf A s.nKey e (teller p)
    refine ⟨_, hgroup, r, hr, ?_⟩
    rw [← hbucket]
    exact congrArg Prod.fst hslot

/-- **What some groups have of the tables.**  In whatever order the operations come: the addresses of
the groups have at most 512 slots of the tried table for each group, and the slots of the new table can
be put down to sources that have told of the address there, so that the sources of the groups have at
most 4096 slots for each group. -/
theorem run_limits {ops : List Op} (h : Runs A nKey ops s) :
    (∀ groups, (triedBy A s groups).card ≤ groups.card * (ADDRMAN_TRIED_BUCKETS_PER_GROUP * 64)) ∧
    ∃ teller : NewSlot → CNetAddr,
      (∀ p, s.vvNew p ≠ -1 → ∃ e, s.entry (s.vvNew p) = some e ∧ Tells ops e.ip (teller p)) ∧
      ∀ groups, (toldBy A s teller groups).card ≤
        groups.card * (ADDRMAN_NEW_BUCKETS_PER_SOURCE_GROUP * 64) :=
  ⟨h.card_triedBy, h.exists_teller⟩

theorem Sample.runs_stepAll (ops : List Op) : ∀ {pre : List Op} {s : CAddrMan}, Runs A nKey pre s →
    (∀ op ∈ ops, op.Timely) → Sample.stepAll A ops s = .ok s' → Runs A nKey (pre ++ ops) s' := by
  induction ops with
  | nil =>
    intro pre s h _ hrun
    cases hrun
    rwa [List.append_nil]
  | cons op ops ih =>
    intro pre s h htimely hrun
    obtain ⟨s₁, hs₁, hrun⟩ := bind_eq_ok.1 hrun
    obtain ⟨hop, hops⟩ := List.forall_mem_cons.1 htimely
    rw [List.append_cons]
    exact ih (h.step hop hs₁) hops hrun

/-- One node is tried, and another is new. -/
theorem run_limits_sample :
    (triedBy Sample.params Sample.busy {Sample.node.ip.toList}).card ≤
      ({Sample.node.ip.toList} : Finset (List UInt8)).card * (8 * 64) ∧
    ∃ teller, (∀ p, Sample.busy.vvNew p ≠ -1 → ∃ e, Sample.busy.entry (Sample.busy.vvNew p) = some e ∧
        Tells Sample.busyOps e.ip (teller p)) ∧
      (toldBy Sample.params Sample.busy teller {Sample.node.ip.toList}).card ≤
        ({Sample.node.ip.toList} : Finset (List UInt8)).card * (64 * 64) := by
  have hrun : Runs Sample.params 1 Sample.busyOps Sample.busy :=
    Sample.runs_stepAll Sample.busyOps .init Sample.timely_busyOps Sample.stepAll_busy
  obtain ⟨htried, teller, htells, hnew⟩ := run_limits hrun
  exact ⟨htried _, teller, htells, hnew _⟩

/-! ## Networks -/

/-- An address of a network, or one that is translated or tunnelled from there. -/
def OfNets (nets : Finset (UInt8 × UInt8)) (ip : CNetAddr) : Prop :=
  isRoutable ip = true ∧ ∃ addr ∈ embedded ip, netOf addr ∈ nets

instance (nets : Finset (UInt8 × UInt8)) (ip : CNetAddr) : Decidable (OfNets nets ip) :=
  inferInstanceAs (Decidable (_ ∧ _))

/-- The groups of some networks. -/
def groupsOf (nets : Finset (UInt8 × UInt8)) : Finset (List UInt8) :=
  nets.image fun net ↦ (AddrRange.ipv4 net).group

theorem OfNets.getGroup_mem {nets : Finset (UInt8 × UInt8)} {ip : CNetAddr} (h : OfNets nets ip) :
    getGroup ip ∈ groupsOf nets := by
  obtain ⟨hroutable, addr, haddr, hnet⟩ := h
  refine Finset.mem_image.2 ⟨_, hnet, ?_⟩
  rw [getGroup_eq, range, if_pos hroutable, Option.mem_def.1 haddr]

/-- **Networks of IPv4** have at most 512 slots of the tried table each, and 4096 of the new table as
sources, whatever they are translated or tunnelled to. -/
theorem run_limits_ipv4 (hgroup : A.getGroup = getGroup) {ops : List Op} (h : Runs A nKey ops s)
    (nets : Finset (UInt8 × UInt8)) :
    (Finset.univ.filter fun p : TriedSlot ↦ ∃ e ∈ s.entry (s.vvTried p), OfNets nets e.ip).card ≤
      nets.card * (ADDRMAN_TRIED_BUCKETS_PER_GROUP * 64) ∧
    ∃ teller : NewSlot → CNetAddr,
      (∀ p, s.vvNew p ≠ -1 → ∃ e, s.entry (s.vvNew p) = some e ∧ Tells ops e.ip (teller p)) ∧
      (Finset.univ.filter fun p ↦ s.vvNew p ≠ -1 ∧ OfNets nets (teller p)).card ≤
        nets.card * (ADDRMAN_NEW_BUCKETS_PER_SOURCE_GROUP * 64) := by
  have hcard : (groupsOf nets).card ≤ nets.card := Finset.card_image_le
  obtain ⟨teller, htells, htold⟩ := h.exists_teller
  refine ⟨?_, teller, htells, ?_⟩
  · have htried := (h.card_triedBy (groupsOf nets)).trans (Nat.mul_le_mul_right _ hcard)
    refine (Finset.card_le_card (Finset.monotone_filter_right _ fun p _ ↦ ?_)).trans htried
    rintro ⟨e, he, hnets⟩
    exact ⟨e, he, hgroup ▸ hnets.getGroup_mem⟩
  · have hnew := (htold (groupsOf nets)).trans (Nat.mul_le_mul_right _ hcard)
    refine (Finset.card_le_card (Finset.monotone_filter_right _ fun p _ ↦ ?_)).trans hnew
    rintro ⟨htaken, hnets⟩
    exact ⟨htaken, hgroup ▸ hnets.getGroup_mem⟩

namespace Sample

/-- The manager with the groups of the program. -/
def netParams : AddrParams := { params with isRoutable, getGroup }

/-- An address of a network. -/
def netNode : CAddress := { node with ip := mapped #v[8, 9, 1, 2] }

/-- An address that is tunnelled to there. -/
def tunnelNode : CAddress :=
  { node with ip := #v[0x20, 0x02, 8, 9, 3, 4, 0, 0, 0, 0, 0, 0, 0, 0, 0, 1] }

/-- A node of the network is heard of and tried, and then one that is tunnelled to there is heard of. -/
def netOps : List Op :=
  [.add netNode tunnelNode.ip 0 2000 2000 0, .good netNode.toCService 1500,
    .add tunnelNode netNode.ip 0 2000 2000 0]

/-- The two are where the hashes, which are lengths, put them. -/
def netSlots (s : CAddrMan) : Bool :=
  (s.entry (s.vvTried (44, 56))).any (fun e ↦ e.ip = netNode.ip) && decide (s.vvNew (44, 56) ≠ -1) &&
    (s.entry (s.vvNew (44, 56))).all fun e ↦ e.ip = tunnelNode.ip

end Sample

theorem run_limits_ipv4_sample : ∃ s, Runs Sample.netParams 1 Sample.netOps s ∧
    (∃ e ∈ s.entry (s.vvTried (44, 56)), OfNets {(8, 9)} e.ip) ∧
    (Finset.univ.filter fun p : TriedSlot ↦
      ∃ e ∈ s.entry (s.vvTried p), OfNets {(8, 9)} e.ip).card ≤
        ({(8, 9)} : Finset (UInt8 × UInt8)).card * (8 * 64) ∧
    ∃ teller : NewSlot → CNetAddr,
      (∀ p, s.vvNew p ≠ -1 → ∃ e, s.entry (s.vvNew p) = some e ∧
        Tells Sample.netOps e.ip (teller p)) ∧
      s.vvNew (44, 56) ≠ -1 ∧ OfNets {(8, 9)} (teller (44, 56)) ∧
      (Finset.univ.filter fun p ↦ s.vvNew p ≠ -1 ∧ OfNets {(8, 9)} (teller p)).card ≤
        ({(8, 9)} : Finset (UInt8 × UInt8)).card * (64 * 64) := by
  have hslots : (Sample.stepAll Sample.netParams Sample.netOps (init 1)).toOption.any
      Sample.netSlots = true := by decide +kernel
  have htimely : ∀ op ∈ Sample.netOps, op.Timely := List.forall_mem_cons.2 ⟨trivial,
    List.forall_mem_cons.2 ⟨show (0 : Int64) < 1500 by decide, List.forall_mem_singleton.2 trivial⟩⟩
  have hof : OfNets {(8, 9)} Sample.netNode.ip :=
    ⟨by decide +kernel, #v[8, 9, 1, 2], by decide +kernel, Finset.mem_singleton.2 rfl⟩
  have hne : Sample.netNode.ip ≠ Sample.tunnelNode.ip := by decide +kernel
  cases hstep : Sample.stepAll Sample.netParams Sample.netOps (init 1) with
  | error fault =>
    rw [hstep] at hslots
    cases hslots
  | ok s =>
    rw [hstep] at hslots
    change Sample.netSlots s = true at hslots
    simp only [Sample.netSlots, Bool.and_eq_true, Option.any_eq_true, Option.all_eq_true,
      decide_eq_true_eq] at hslots
    obtain ⟨⟨⟨e, he, hip⟩, htaken⟩, hnew⟩ := hslots
    have hrun := Sample.runs_stepAll Sample.netOps .init htimely hstep
    obtain ⟨htried, teller, htells, htold⟩ := run_limits_ipv4 rfl hrun {(8, 9)}
    refine ⟨s, hrun, ⟨e, he, hip ▸ hof⟩, htried, teller, htells, htaken, ?_, htold⟩
    -- the other node is told of by the first one alone
    obtain ⟨e', he', addr, _, _, _, _, hadd, haddr⟩ := htells _ htaken
    rw [hnew e' he'] at haddr
    simp only [List.nil_append, Sample.netOps, List.mem_cons, List.not_mem_nil, or_false, reduceCtorEq,
      false_or, Op.add.injEq] at hadd
    obtain ⟨rfl, -⟩ | ⟨-, htold', -⟩ := hadd
    · exact absurd haddr hne
    · rwa [htold']

end CAddrMan

end Bws
