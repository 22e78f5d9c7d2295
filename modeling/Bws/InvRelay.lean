import Bws.Core
import Bws.Lib.Recent

/-!
# Announcing inventories

What a peer is known to have is kept in an `mruset`, which forgets the oldest entry when it is full.
`PushInventory` puts what the peer may lack into a queue, and `SendMessages` announces the queue, or
lets transactions wait for the next trickle.  Over every run nothing that is pushed gets lost, and
nothing is announced again, or announced back, until the `mruset` has taken up as many others as it
holds (`InvNode.run_announces`).
-/

namespace Bws

/-! ## The source -/

structure CInv where
  type : ℤ
  hash : UInt256
deriving DecidableEq

def MSG_TX : ℤ := 1

/-- `mruset<T>` -/
structure Mruset (α : Type) where
  set : Finset α
  queue : List α
  nMaxSize : ℕ

namespace Mruset

variable {α : Type} [DecidableEq α]

/-- `mruset(nMaxSizeIn)` -/
def init (nMaxSizeIn : ℕ) : Mruset α := ⟨∅, [], nMaxSizeIn⟩

def count (s : Mruset α) (k : α) : Bool := k ∈ s.set

/-- `insert`, and whether the element is new. -/
def insert (s : Mruset α) (x : α) : Mruset α × Bool :=
  if x ∈ s.set then (s, false)
  else
    let s := { s with set := Insert.insert x s.set }
    let s := if s.nMaxSize ≠ 0 ∧ s.queue.length = s.nMaxSize then
        { s with
          set := s.queue.head?.elim s.set s.set.erase
          queue := s.queue.tail }
      else s
    ({ s with queue := s.queue ++ [x] }, true)

end Mruset

/-- What a `CNode` has for announcing inventories. -/
structure InvNode where
  setInventoryKnown : Mruset CInv
  vInventoryToSend : List CInv
  /-- history: the `inv` messages of `SendMessages` -/
  sent : List (List CInv)
  /-- history: what `setInventoryKnown` has taken up, and whether it has been announced to the peer -/
  taken : List (CInv × Bool)

namespace InvNode

/-- The constructor gives `setInventoryKnown` the size `SendBufferSize() / 1000`. -/
def init (nMaxSize : ℕ) : InvNode := ⟨.init nMaxSize, [], [], []⟩

/-- `setInventoryKnown.insert(inv)` -/
def insertKnown (node : InvNode) (inv : CInv) (announced : Bool) : InvNode × Bool :=
  let r := node.setInventoryKnown.insert inv
  ({ node with
      setInventoryKnown := r.1
      taken := if r.2 then node.taken ++ [(inv, announced)] else node.taken }, r.2)

def addInventoryKnown (node : InvNode) (inv : CInv) : InvNode := (node.insertKnown inv false).1

def pushInventory (node : InvNode) (inv : CInv) : InvNode :=
  if node.setInventoryKnown.count inv then node
  else { node with vInventoryToSend := node.vInventoryToSend ++ [inv] }

/-- `PushMessage("inv", vInv)` -/
def pushInv (node : InvNode) (vInv : List CInv) : InvNode := { node with sent := node.sent ++ [vInv] }

section

/- `fTrickleWait` is made of a hash with a secret salt. -/
variable (fSendTrickle : Bool) (fTrickleWait : CInv → Bool)

/-- The loop of `SendMessages` over `vInventoryToSend`, with `vInv` and `vInvWait`. -/
def sendLoop : List CInv → InvNode → List CInv → List CInv → InvNode × List CInv × List CInv
  | [], node, vInv, vInvWait => (node, vInv, vInvWait)
  | inv :: rest, node, vInv, vInvWait =>
    if node.setInventoryKnown.count inv then sendLoop rest node vInv vInvWait
    -- trickle out tx inv to protect privacy
    else if inv.type = MSG_TX ∧ !fSendTrickle ∧ fTrickleWait inv then
      sendLoop rest node vInv (vInvWait ++ [inv])
    else
      -- returns true if wasn't already contained in the set
      let r := node.insertKnown inv true
      if r.2 then
        if 1000 ≤ (vInv ++ [inv]).length then sendLoop rest (r.1.pushInv (vInv ++ [inv])) [] vInvWait
        else sendLoop rest r.1 (vInv ++ [inv]) vInvWait
      else sendLoop rest r.1 vInv vInvWait

/-- The part of `SendMessages` for inventories. -/
def sendMessages (node : InvNode) : InvNode :=
  let r := sendLoop fSendTrickle fTrickleWait node.vInventoryToSend node [] []
  let node := { r.1 with vInventoryToSend := r.2.2 }
  if r.2.1 = [] then node else node.pushInv r.2.1

end

inductive Event where
  /-- The peer has it: it has announced it, or sent it. -/
  | addInventoryKnown (inv : CInv)
  | pushInventory (inv : CInv)
  | sendMessages (fSendTrickle : Bool) (fTrickleWait : CInv → Bool)

def step (node : InvNode) : Event → InvNode
  | .addInventoryKnown inv => node.addInventoryKnown inv
  | .pushInventory inv => node.pushInventory inv
  | .sendMessages fSendTrickle fTrickleWait => node.sendMessages fSendTrickle fTrickleWait

def run (node : InvNode) (events : List Event) : InvNode := events.foldl step node

end InvNode

/-! ## The set of the most recent elements -/

namespace Mruset

variable {α : Type} [DecidableEq α] {s : Mruset α} {n : ℕ} {l : List α} {x : α}

/-- The set holds the end of what it has taken up. -/
structure Holds (s : Mruset α) (n : ℕ) (l : List α) : Prop where
  nMaxSize : s.nMaxSize = n
  queue : s.queue = Recent.window n l
  set : s.set = s.queue.toFinset
  spaced : Recent.Spaced n l

theorem holds_init (n : ℕ) : (init n : Mruset α).Holds n [] :=
  ⟨rfl, (Recent.window_nil n).symm, rfl, Recent.spaced_nil n⟩

theorem Holds.count_iff (h : s.Holds n l) : s.count x = true ↔ x ∈ Recent.window n l := by
  rw [count, decide_eq_true_iff, h.set, h.queue, List.mem_toFinset]

theorem Holds.mem_of_count (h : s.Holds n l) (hx : s.count x = true) : x ∈ l :=
  (Recent.window_suffix n l).subset (h.count_iff.1 hx)

theorem insert_of_count (hx : s.count x = true) : s.insert x = (s, false) :=
  if_pos (of_decide_eq_true hx)

/-- A new element is taken up. -/
theorem Holds.insert (h : s.Holds n l) (hx : s.count x = false) :
    (s.insert x).2 = true ∧ (s.insert x).1.Holds n (l ++ [x]) := by
  have hmem : x ∉ s.set := of_decide_eq_false hx
  have hwindow : x ∉ Recent.window n l := by
    rw [← h.count_iff, hx]
    exact Bool.false_ne_true
  have hnodup : s.queue.Nodup := h.queue ▸ h.spaced.nodup_window
  have hspaced := h.spaced.concat hwindow
  rw [Mruset.insert, if_neg hmem]
  refine ⟨rfl, ?_⟩
  dsimp only
  by_cases hfull : s.nMaxSize ≠ 0 ∧ s.queue.length = s.nMaxSize
  · rw [if_pos hfull]
    -- the queue is not empty, and its first element goes
    obtain ⟨y, queue, hqueue⟩ := List.exists_cons_of_length_pos
      (Nat.pos_of_ne_zero (hfull.2 ▸ hfull.1))
    have hfull' := hfull
    rw [h.nMaxSize, h.queue] at hfull'
    refine ⟨h.nMaxSize, ?_, ?_, hspaced⟩
    · rw [Recent.window_concat, if_pos hfull', ← h.queue]
    · rw [hqueue, List.nodup_cons] at hnodup
      rw [h.set, hqueue]
      ext z
      simp only [List.head?_cons, Option.elim_some, List.tail_cons, Finset.mem_erase,
        Finset.mem_insert, List.mem_toFinset, List.mem_cons, List.mem_append, List.not_mem_nil,
        or_false]
      constructor
      · rintro ⟨hne, rfl | rfl | hz⟩
        · exact .inr rfl
        · exact absurd rfl hne
        · exact .inl hz
      · have hxy : x ≠ y := by
          rintro rfl
          rw [h.set, hqueue, List.mem_toFinset] at hmem
          exact hmem List.mem_cons_self
        rintro (hz | rfl)
        · refine ⟨?_, .inr (.inr hz)⟩
          rintro rfl
          exact hnodup.1 hz
        · exact ⟨hxy, .inl rfl⟩
  · rw [if_neg hfull]
    have hfull' := hfull
    rw [h.nMaxSize, h.queue] at hfull'
    refine ⟨h.nMaxSize, ?_, ?_, hspaced⟩
    · rw [Recent.window_concat, if_neg hfull', ← h.queue]
    · rw [h.set]
      ext z
      simp only [Finset.mem_insert, List.mem_toFinset, List.mem_append, List.mem_singleton]
      exact or_comm

end Mruset

/-! ## A run -/

namespace InvNode

/-- What the events push to the peer. -/
def Event.pushed : Event → List CInv
  | .pushInventory inv => [inv]
  | _ => []

/-- What the peer is heard to have. -/
def Event.heard : Event → List CInv
  | .addInventoryKnown inv => [inv]
  | _ => []

/-- Before a round of the loop: `vInv` is announced next, and `waiting` is what has not been. -/
structure Announces (n : ℕ) (pushed heard : List CInv) (node : InvNode)
    (vInv waiting : List CInv) : Prop where
  holds : node.setInventoryKnown.Holds n (node.taken.map Prod.fst)
  announced : (node.taken.filter Prod.snd).map Prod.fst = node.sent.flatten ++ vInv
  of_heard : ∀ inv, (inv, false) ∈ node.taken → inv ∈ heard
  of_pushed : ∀ inv, (inv, true) ∈ node.taken ∨ inv ∈ waiting → inv ∈ pushed
  kept : ∀ inv ∈ pushed, inv ∈ node.taken.map Prod.fst ∨ inv ∈ waiting
  sizes : ∀ msg ∈ node.sent, msg ≠ [] ∧ msg.length ≤ 1000

section

variable {n : ℕ} {pushed heard : List CInv} {node : InvNode} {inv : CInv}
  {vInv waiting waiting' : List CInv}

theorem announces_init (n : ℕ) : Announces n [] [] (init n) [] [] where
  holds := Mruset.holds_init n
  announced := rfl
  of_heard := fun _ h ↦ absurd h List.not_mem_nil
  of_pushed := fun _ h ↦ absurd h (by simp [init])
  kept := fun _ h ↦ absurd h List.not_mem_nil
  sizes := fun _ h ↦ absurd h List.not_mem_nil

theorem insertKnown_of_count (h : node.setInventoryKnown.count inv = true) (announced : Bool) :
    node.insertKnown inv announced = (node, false) := by
  rw [insertKnown, Mruset.insert_of_count h]
  rfl

theorem Announces.insertKnown (h : Announces n pushed heard node vInv waiting)
    (hnew : node.setInventoryKnown.count inv = false) (announced : Bool) :
    (node.insertKnown inv announced).2 = true ∧
    (node.insertKnown inv announced).1.setInventoryKnown.Holds n
      ((node.taken ++ [(inv, announced)]).map Prod.fst) ∧
    (node.insertKnown inv announced).1.taken = node.taken ++ [(inv, announced)] ∧
    (node.insertKnown inv announced).1.sent = node.sent ∧
    (node.insertKnown inv announced).1.vInventoryToSend = node.vInventoryToSend := by
  obtain ⟨hnew, hholds⟩ := h.holds.insert hnew
  rw [InvNode.insertKnown]
  dsimp only
  rw [hnew, if_pos rfl, List.map_append]
  exact ⟨rfl, hholds, rfl, rfl, rfl⟩

/-- What waits may be told in another order, and without what is known. -/
theorem Announces.congr (h : Announces n pushed heard node vInv waiting)
    (hsub : ∀ inv ∈ waiting', inv ∈ waiting)
    (hsup : ∀ inv ∈ waiting, inv ∈ node.taken.map Prod.fst ∨ inv ∈ waiting') :
    Announces n pushed heard node vInv waiting' where
  holds := h.holds
  announced := h.announced
  of_heard := h.of_heard
  of_pushed := fun inv hinv ↦ h.of_pushed inv (hinv.imp_right (hsub inv))
  kept := fun inv hinv ↦ (h.kept inv hinv).elim .inl (hsup inv)
  sizes := h.sizes

/-- A message with at most 1000 entries is pushed. -/
theorem Announces.pushInv (h : Announces n pushed heard node vInv waiting) (hne : vInv ≠ [])
    (hlen : vInv.length ≤ 1000) : Announces n pushed heard (node.pushInv vInv) [] waiting where
  holds := h.holds
  announced := by
    rw [List.append_nil]
    refine h.announced.trans ?_
    rw [InvNode.pushInv, List.flatten_append, List.flatten_singleton]
  of_heard := h.of_heard
  of_pushed := h.of_pushed
  kept := h.kept
  sizes := by
    intro msg hmsg
    rcases List.mem_append.1 hmsg with hmsg | hmsg
    · exact h.sizes msg hmsg
    · obtain rfl := List.mem_singleton.1 hmsg
      exact ⟨hne, hlen⟩

/-- What is first in the queue is announced. -/
theorem Announces.announce (h : Announces n pushed heard node vInv (inv :: waiting))
    (hnew : node.setInventoryKnown.count inv = false) :
    (node.insertKnown inv true).2 = true ∧
      Announces n pushed heard (node.insertKnown inv true).1 (vInv ++ [inv]) waiting := by
  obtain ⟨hnew, hholds, htaken, hsent, -⟩ := h.insertKnown hnew true
  refine ⟨hnew, ⟨by rwa [htaken], ?_, ?_, ?_, ?_, by rw [hsent]; exact h.sizes⟩⟩
  · rw [htaken, hsent, List.filter_append, List.map_append, h.announced, List.append_assoc]
    rfl
  · intro inv' hmem
    rw [htaken] at hmem
    rcases List.mem_append.1 hmem with hmem | hmem
    · exact h.of_heard inv' hmem
    · cases List.mem_singleton.1 hmem
  · rintro inv' (hmem | hmem)
    · rw [htaken] at hmem
      rcases List.mem_append.1 hmem with hmem | hmem
      · exact h.of_pushed inv' (.inl hmem)
      · cases List.mem_singleton.1 hmem
        exact h.of_pushed inv (.inr List.mem_cons_self)
    · exact h.of_pushed inv' (.inr (List.mem_cons_of_mem _ hmem))
  · intro inv' hmem
    rw [htaken, List.map_append, List.mem_append]
    rcases h.kept inv' hmem with htake | hwait
    · exact .inl (.inl htake)
    · rcases List.mem_cons.1 hwait with rfl | hwait
      · exact .inl (.inr List.mem_cons_self)
      · exact .inr hwait

/-- **The loop**: what it lets wait are transactions, and only when it is not the time to trickle. -/
theorem Announces.sendLoop (fSendTrickle : Bool) (fTrickleWait : CInv → Bool) :
    ∀ {rest : List CInv} {node : InvNode} {vInv vInvWait : List CInv},
      Announces n pushed heard node vInv (rest ++ vInvWait) → vInv.length < 1000 →
      (fSendTrickle = true → vInvWait = []) →
      ∀ r, sendLoop fSendTrickle fTrickleWait rest node vInv vInvWait = r →
        Announces n pushed heard r.1 r.2.1 r.2.2 ∧ r.2.1.length < 1000 ∧
        (fSendTrickle = true → r.2.2 = []) := by
  intro rest
  induction rest with
  | nil =>
    rintro node vInv vInvWait h hlen htrickle r rfl
    exact ⟨h, hlen, htrickle⟩
  | cons inv rest ih =>
    intro node vInv vInvWait h hlen htrickle r hr
    rw [InvNode.sendLoop] at hr
    by_cases hcount : node.setInventoryKnown.count inv = true
    · rw [if_pos hcount] at hr
      refine ih (h.congr (fun inv' hmem ↦ List.mem_cons_of_mem _ hmem) fun inv' hmem ↦ ?_) hlen
        htrickle r hr
      rcases List.mem_cons.1 hmem with rfl | hmem
      · exact .inl (h.holds.mem_of_count hcount)
      · exact .inr hmem
    rw [if_neg hcount] at hr
    by_cases hwait : inv.type = MSG_TX ∧ (!fSendTrickle) = true ∧ fTrickleWait inv = true
    · rw [if_pos hwait] at hr
      have hperm : (inv :: rest ++ vInvWait).Perm (rest ++ (vInvWait ++ [inv])) := by
        rw [← List.append_assoc, List.cons_append]
        exact (List.perm_append_singleton inv _).symm
      refine ih (h.congr (fun inv' hmem ↦ hperm.mem_iff.2 hmem) fun inv' hmem ↦
        .inr (hperm.mem_iff.1 hmem)) hlen (fun htrue ↦ ?_) r hr
      rw [htrue] at hwait
      exact absurd hwait.2.1 Bool.false_ne_true
    rw [if_neg hwait] at hr
    obtain ⟨hnew, hannounces⟩ := h.announce (eq_false_of_ne_true hcount)
    have hlong : (vInv ++ [inv]).length = vInv.length + 1 := List.length_append
    dsimp only at hr
    rw [hnew, if_pos rfl] at hr
    by_cases hfull : 1000 ≤ (vInv ++ [inv]).length
    · rw [if_pos hfull] at hr
      have hne : vInv ++ [inv] ≠ [] := List.append_ne_nil_of_right_ne_nil _ (List.cons_ne_nil _ _)
      exact ih (hannounces.pushInv hne (by omega)) (by decide) htrickle r hr
    · rw [if_neg hfull] at hr
      exact ih hannounces (not_le.1 hfull) htrickle r hr

/-- Only the queue is written. -/
theorem Announces.setQueue (h : Announces n pushed heard node vInv waiting) (queue : List CInv) :
    Announces n pushed heard { node with vInventoryToSend := queue } vInv waiting :=
  ⟨h.holds, h.announced, h.of_heard, h.of_pushed, h.kept, h.sizes⟩

theorem Announces.sendMessages (h : Announces n pushed heard node [] node.vInventoryToSend)
    (fSendTrickle : Bool) (fTrickleWait : CInv → Bool) :
    Announces n pushed heard (node.sendMessages fSendTrickle fTrickleWait) []
      (node.sendMessages fSendTrickle fTrickleWait).vInventoryToSend ∧
    (fSendTrickle = true →
      (node.sendMessages fSendTrickle fTrickleWait).vInventoryToSend = []) := by
  rw [← List.append_nil node.vInventoryToSend] at h
  obtain ⟨hloop, hlen, htrickle⟩ :=
    h.sendLoop fSendTrickle fTrickleWait (by decide) (fun _ ↦ rfl) _ rfl
  rw [InvNode.sendMessages]
  dsimp only
  by_cases hempty :
      (InvNode.sendLoop fSendTrickle fTrickleWait node.vInventoryToSend node [] []).2.1 = []
  · rw [if_pos hempty]
    rw [hempty] at hloop
    exact ⟨hloop.setQueue _, htrickle⟩
  · rw [if_neg hempty]
    exact ⟨(hloop.setQueue _).pushInv hempty hlen.le, htrickle⟩

theorem Announces.addInventoryKnown (h : Announces n pushed heard node [] waiting) (inv : CInv) :
    Announces n pushed (heard ++ [inv]) (node.addInventoryKnown inv) [] waiting := by
  have hheard : Announces n pushed (heard ++ [inv]) node [] waiting :=
    { h with of_heard := fun inv' hmem ↦ List.mem_append_left _ (h.of_heard inv' hmem) }
  rw [InvNode.addInventoryKnown]
  by_cases hcount : node.setInventoryKnown.count inv = true
  · rw [insertKnown_of_count hcount]
    exact hheard
  obtain ⟨-, hholds, htaken, hsent, -⟩ := hheard.insertKnown (eq_false_of_ne_true hcount) false
  refine ⟨by rwa [htaken], ?_, ?_, ?_, ?_, by rw [hsent]; exact h.sizes⟩
  · rw [htaken, hsent, List.filter_append, List.map_append, h.announced]
    exact List.append_nil _
  · intro inv' hmem
    rw [htaken] at hmem
    rcases List.mem_append.1 hmem with hmem | hmem
    · exact hheard.of_heard inv' hmem
    · cases List.mem_singleton.1 hmem
      exact List.mem_append_right _ List.mem_cons_self
  · rintro inv' (hmem | hmem)
    · rw [htaken] at hmem
      rcases List.mem_append.1 hmem with hmem | hmem
      · exact h.of_pushed inv' (.inl hmem)
      · cases List.mem_singleton.1 hmem
    · exact h.of_pushed inv' (.inr hmem)
  · intro inv' hmem
    rw [htaken, List.map_append, List.mem_append]
    exact (h.kept inv' hmem).imp_left .inl

theorem addInventoryKnown_vInventoryToSend (node : InvNode) (inv : CInv) :
    (node.addInventoryKnown inv).vInventoryToSend = node.vInventoryToSend := rfl

theorem Announces.pushInventory (h : Announces n pushed heard node [] node.vInventoryToSend)
    (inv : CInv) : Announces n (pushed ++ [inv]) heard (node.pushInventory inv) []
      (node.pushInventory inv).vInventoryToSend := by
  have hpushed : ∀ inv', (inv', true) ∈ node.taken ∨ inv' ∈ node.vInventoryToSend →
      inv' ∈ pushed ++ [inv] := fun inv' hmem ↦ List.mem_append_left _ (h.of_pushed inv' hmem)
  rw [InvNode.pushInventory]
  split_ifs with hcount
  · refine { h with of_pushed := hpushed, kept := fun inv' hmem ↦ ?_ }
    rcases List.mem_append.1 hmem with hmem | hmem
    · exact h.kept inv' hmem
    · obtain rfl := List.mem_singleton.1 hmem
      exact .inl (h.holds.mem_of_count hcount)
  · refine ⟨h.holds, h.announced, h.of_heard, ?_, ?_, h.sizes⟩
    · rintro inv' (hmem | hmem)
      · exact hpushed inv' (.inl hmem)
      · rcases List.mem_append.1 hmem with hmem | hmem
        · exact hpushed inv' (.inr hmem)
        · exact List.mem_append_right _ hmem
    · intro inv' hmem
      rcases List.mem_append.1 hmem with hmem | hmem
      · exact (h.kept inv' hmem).imp_right (List.mem_append_left _)
      · exact .inr (List.mem_append_right _ hmem)

theorem Announces.step (h : Announces n pushed heard node [] node.vInventoryToSend)
    (event : Event) : Announces n (pushed ++ event.pushed) (heard ++ event.heard)
      (node.step event) [] (node.step event).vInventoryToSend := by
  cases event with
  | addInventoryKnown inv =>
    simpa only [Event.pushed, Event.heard, InvNode.step, List.append_nil,
      addInventoryKnown_vInventoryToSend] using h.addInventoryKnown inv
  | pushInventory inv =>
    simpa only [Event.pushed, Event.heard, InvNode.step, List.append_nil] using h.pushInventory inv
  | sendMessages fSendTrickle fTrickleWait =>
    simpa only [Event.pushed, Event.heard, InvNode.step, List.append_nil] using
      (h.sendMessages fSendTrickle fTrickleWait).1

theorem Announces.run (events : List Event) :
    ∀ {pushed heard : List CInv} {node : InvNode},
      Announces n pushed heard node [] node.vInventoryToSend →
      Announces n (pushed ++ events.flatMap Event.pushed) (heard ++ events.flatMap Event.heard)
        (node.run events) [] (node.run events).vInventoryToSend := by
  induction events with
  | nil =>
    intro pushed heard node h
    rwa [List.flatMap_nil, List.flatMap_nil, List.append_nil, List.append_nil]
  | cons event events ih =>
    intro pushed heard node h
    rw [List.flatMap_cons, List.flatMap_cons, ← List.append_assoc, ← List.append_assoc]
    exact ih (h.step event)

end

/-- **The relay to a peer**, over every run from the start.  The announced inventories are those of
the `inv` messages, in order.  Between two times that one inventory is taken up, be it announced or
heard, lie as many others as the memory holds, and with a memory of size zero there are no two such
times.  Only what has been pushed is announced, and it is announced, or is known, or waits; after a
trickle nothing waits.  No message is empty or too long. -/
theorem run_announces (nMaxSize : ℕ) (events : List Event) :
    let node := (init nMaxSize).run events
    (node.taken.filter Prod.snd).map Prod.fst = node.sent.flatten ∧
    Recent.Spaced nMaxSize (node.taken.map Prod.fst) ∧
    (∀ inv, (inv, false) ∈ node.taken → inv ∈ events.flatMap Event.heard) ∧
    (∀ inv ∈ node.sent.flatten, inv ∈ events.flatMap Event.pushed) ∧
    (∀ inv ∈ events.flatMap Event.pushed, inv ∈ node.sent.flatten ∨
      inv ∈ events.flatMap Event.heard ∨ inv ∈ node.vInventoryToSend) ∧
    (∀ msg ∈ node.sent, msg ≠ [] ∧ msg.length ≤ 1000) ∧
    ∀ fTrickleWait, (node.sendMessages true fTrickleWait).vInventoryToSend = [] := by
  intro node
  have h : Announces nMaxSize (events.flatMap Event.pushed) (events.flatMap Event.heard) node []
      node.vInventoryToSend := (announces_init nMaxSize).run events
  have hannounced := h.announced
  rw [List.append_nil] at hannounced
  have hmem : ∀ inv, inv ∈ node.sent.flatten ↔ (inv, true) ∈ node.taken := by
    intro inv
    rw [← hannounced, List.mem_map]
    constructor
    · rintro ⟨⟨inv', announced⟩, hinv, rfl⟩
      obtain ⟨hinv, htrue⟩ := List.mem_filter.1 hinv
      obtain rfl : announced = true := htrue
      exact hinv
    · exact fun hinv ↦ ⟨_, List.mem_filter.2 ⟨hinv, rfl⟩, rfl⟩
  refine ⟨hannounced, h.holds.spaced, h.of_heard,
    fun inv hinv ↦ h.of_pushed inv (.inl ((hmem inv).1 hinv)), ?_, h.sizes,
    fun fTrickleWait ↦ (h.sendMessages true fTrickleWait).2 rfl⟩
  intro inv hinv
  rcases h.kept inv hinv with htaken | hwait
  · obtain ⟨⟨inv, announced⟩, hmem', rfl⟩ := List.mem_map.1 htaken
    cases announced with
    | true => exact .inl ((hmem inv).2 hmem')
    | false => exact .inr (.inl (h.of_heard inv hmem'))
  · exact .inr (.inr hwait)

end InvNode

end Bws
