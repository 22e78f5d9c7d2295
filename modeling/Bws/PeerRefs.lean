import Bws.Lib.RefCount
import Bws.Peers

/-!
# The references to connections

Each thread holds on to the nodes that it works with by reference counts, and a node is deleted when
its count is zero.  In whatever order the steps of the threads come, no node is used after it has been
deleted, and no count is negative, but in two places where a thread has no reference of its own
(`Peers.run_safe`).
-/

namespace Bws

/-- The references that the thread of the sockets has taken. -/
def SocketPc.copies : SocketPc → List NodePtr
  | .serve vNodesCopy _ => vNodesCopy
  | _ => []

def SocketPc.rest : SocketPc → List NodePtr
  | .serve _ rest => rest
  | _ => []

/-- The node that is about to be deleted. -/
def SocketPc.dying : SocketPc → Option NodePtr
  | .deleting p _ => some p
  | _ => none

def SocketPc.toDelete : SocketPc → List NodePtr
  | .delete rest => rest
  | .deleting p rest => p :: rest
  | _ => []

/-- The references that the thread of the messages has taken. -/
def MessagePc.copies : MessagePc → List NodePtr
  | .poll => []
  | .serve vNodesCopy _ | .process _ vNodesCopy _ => vNodesCopy

def MessagePc.rest : MessagePc → List NodePtr
  | .poll => []
  | .serve _ rest => rest
  | .process p _ rest => p :: rest

namespace Peers

variable {A : PeerArgs} {s : Peers} {owned owned' : List (NodePtr × Option Opener)} {p : NodePtr}
  {node node' : PeerNode} {t : Opener}

/-- The counts of the nodes that will not be deleted next. -/
def counts (s : Peers) (p : NodePtr) : Option ℤ :=
  if s.socket.dying = some p then none else (s.heap p).map PeerNode.nRefCount

/-- What a thread that opens connections knows of the node that it has got: one that it has created is
its own until `fNetworkNode` is set, and so is one that it has found, unless that is deleted. -/
def OpenerSound (owned : List (NodePtr × Option Opener)) (count : NodePtr → Option ℤ)
    (nextPtr : NodePtr) (t : Opener) : OpenerPc → Prop
  | .found _ p => p < nextPtr
  | .opened task false p writes => p < nextPtr ∧ writes <:+ task.writes false ∧
      ((p, some t) ∈ owned ∨ ∀ w ∈ writes, w = .fOneShot)
  | .opened task true p writes => p < nextPtr ∧ writes <:+ task.writes true ∧
      (.fNetworkNode ∈ writes → count p ≠ none → (p, some t) ∈ owned)
  | _ => True

/-- **Who owns the references.**  The first reference to a node is that of the thread which creates it,
until it is left to the list of the nodes; that is given back when the node is disconnected, if it has
been left.  All others are those of the copies that two threads have, and of connections found. -/
structure Inv (owned : List (NodePtr × Option Opener)) (s : Peers) : Prop where
  counted : RefCount.Counted s.counts
    (owned.map Prod.fst ++ (s.socket.copies ++ s.message.copies))
  fresh : ∀ p node, s.heap p = some node → p < s.nextPtr
  nodup : (s.vNodes ++ s.vNodesDisconnected).Nodup
  exists_iff : ∀ p, (∃ node, s.heap p = some node) ↔ p ∈ s.vNodes ++ s.vNodesDisconnected
  listed : ∀ p ∈ s.vNodes, ∀ node, s.heap p = some node →
    (node.fNetworkNode || node.fInbound) = true → (p, none) ∈ owned
  nodup_toDelete : s.socket.toDelete.Nodup
  toDelete : ∀ p ∈ s.socket.toDelete, p ∈ s.vNodesDisconnected
  socketRest : ∀ p ∈ s.socket.rest, p ∈ s.socket.copies
  messageRest : ∀ p ∈ s.message.rest, p ∈ s.message.copies
  opener : ∀ t, OpenerSound owned s.counts s.nextPtr t (s.opener t)

/-- A thread is about to use a node without a reference of its own: a connection that it has found, and
one that it has left to the list. -/
def Unguarded (s : Peers) (t : Opener) : OpenEvent → Prop
  | .addRef => ∃ task p, s.opener t = .found task p
  | .write => ∃ task fFound p w ws, s.opener t = .opened task fFound p (w :: ws) ∧
      (fFound = true ∨ w = .fOneShot)
  | _ => False

/-- A step ends with the references owned; it may fail only where a node is unguarded. -/
def Safe (unguarded : Prop) : Except PeerFault Peers → Prop
  | .ok s => ∃ owned, Inv owned s
  | .error _ => unguarded

theorem deref_of (hp : s.heap p = some node) : s.deref p = .ok node := by
  rw [deref, hp]

theorem deref_of_none (hp : s.heap p = none) :
    s.deref p = .error .useAfterFree := by
  rw [deref, hp]

theorem modify_of (hp : s.heap p = some node) (f : PeerNode → PeerNode) :
    s.modify p f = .ok (s.put p (f node)) := by
  rw [modify, deref_of hp]
  rfl

/-! ## Counts -/

theorem counts_eq_some {n : ℤ} : s.counts p = some n ↔
    s.socket.dying ≠ some p ∧ ∃ node, s.heap p = some node ∧ node.nRefCount = n := by
  rw [counts]
  by_cases hdying : s.socket.dying = some p
  · rw [if_pos hdying]
    constructor
    · intro h
      cases h
    · exact fun h ↦ absurd hdying h.1
  · rw [if_neg hdying, Option.map_eq_some_iff]
    exact ⟨fun h ↦ ⟨hdying, h⟩, fun h ↦ h.2⟩

theorem counts_put (s : Peers) (p : NodePtr) (node : PeerNode) :
    (s.put p node).counts = if s.socket.dying = some p then s.counts
      else Function.update s.counts p (some node.nRefCount) := by
  funext q
  have hheap : (s.put p node).heap = Function.update s.heap p (some node) := rfl
  have hdying : (s.put p node).socket = s.socket := rfl
  by_cases hq : q = p
  · subst hq
    split_ifs with hp
    · rw [counts, counts, hdying, if_pos hp, if_pos hp]
    · rw [Function.update_self, counts, hdying, if_neg hp, hheap, Function.update_self, Option.map_some]
  · have hsame : (s.put p node).counts q = s.counts q := by
      rw [counts, counts, hheap, hdying, Function.update_of_ne hq]
    rw [hsame]
    split_ifs
    · rfl
    · rw [Function.update_of_ne hq]

/-- A node that changes, but not its count. -/
theorem counts_put_same (hp : s.heap p = some node) (hcount : node'.nRefCount = node.nRefCount) :
    (s.put p node').counts = s.counts := by
  rw [counts_put]
  split_ifs with hdying
  · rfl
  · rw [Function.update_eq_self_iff, hcount, counts_eq_some.2 ⟨hdying, node, hp, rfl⟩]

/-! ## The invariant -/

theorem not_dying (hdying : s.socket.dying = none) (p : NodePtr) : s.socket.dying ≠ some p := by
  rw [hdying]
  exact Option.some_ne_none p |>.symm

section

variable (h : Inv owned s)

include h

theorem Inv.exists_of_vNodes (hp : p ∈ s.vNodes) : ∃ node, s.heap p = some node :=
  (h.exists_iff p).2 (List.mem_append_left _ hp)

theorem Inv.exists_of_disconnected (hp : p ∈ s.vNodesDisconnected) : ∃ node, s.heap p = some node :=
  (h.exists_iff p).2 (List.mem_append_right _ hp)

/-- What is referred to exists, and will not be deleted next. -/
theorem Inv.exists_of_ref
    (hp : p ∈ owned.map Prod.fst ++ (s.socket.copies ++ s.message.copies)) :
    s.socket.dying ≠ some p ∧ ∃ node, s.heap p = some node := by
  obtain ⟨n, hn⟩ := h.counted.exists_count p hp
  obtain ⟨hdying, node, hnode, -⟩ := counts_eq_some.1 hn
  exact ⟨hdying, node, hnode⟩

theorem Inv.exists_of_owned {who : Option Opener} (hp : (p, who) ∈ owned) :
    s.socket.dying ≠ some p ∧ ∃ node, s.heap p = some node :=
  h.exists_of_ref (List.mem_append_left _ (List.mem_map_of_mem hp))

theorem Inv.exists_of_socketRest (hp : p ∈ s.socket.rest) :
    s.socket.dying ≠ some p ∧ ∃ node, s.heap p = some node :=
  h.exists_of_ref (List.mem_append_right _ (List.mem_append_left _ (h.socketRest p hp)))

theorem Inv.exists_of_messageRest (hp : p ∈ s.message.rest) :
    s.socket.dying ≠ some p ∧ ∃ node, s.heap p = some node :=
  h.exists_of_ref (List.mem_append_right _ (List.mem_append_right _ (h.messageRest p hp)))

theorem Inv.not_mem_disconnected (hp : p ∈ s.vNodes) : p ∉ s.vNodesDisconnected :=
  List.disjoint_of_nodup_append h.nodup hp

theorem Inv.dying_mem (hdying : s.socket.dying = some p) : p ∈ s.vNodesDisconnected := by
  refine h.toDelete p ?_
  rcases hpc : s.socket <;> rw [hpc] at hdying <;> cases hdying
  exact List.mem_cons_self

/-- What is in `vNodes` will not be deleted next. -/
theorem Inv.not_dying_of_vNodes (hp : p ∈ s.vNodes) : s.socket.dying ≠ some p :=
  fun hdying ↦ h.not_mem_disconnected hp (h.dying_mem hdying)

theorem Inv.nextPtr_none : s.heap s.nextPtr = none := by
  cases hnode : s.heap s.nextPtr with
  | none => rfl
  | some node => exact absurd (h.fresh _ _ hnode) (lt_irrefl _)

theorem Inv.nextPtr_not_mem : s.nextPtr ∉ s.vNodes ++ s.vNodesDisconnected := by
  intro hmem
  obtain ⟨node, hnode⟩ := (h.exists_iff _).2 hmem
  cases h.nextPtr_none.symm.trans hnode

/-- The semaphore, the bans and the grants do not matter to the references. -/
theorem Inv.withOther (semOutbound : ℤ) (setBanned : CNetAddr → Option ℤ) (grant : Opener → Bool) :
    Inv owned { s with semOutbound, setBanned, grant } :=
  ⟨h.counted, h.fresh, h.nodup, h.exists_iff, h.listed, h.nodup_toDelete, h.toDelete, h.socketRest,
    h.messageRest, h.opener⟩

theorem Inv.goto {pc : OpenerPc} (hpc : OpenerSound owned s.counts s.nextPtr t pc) :
    Inv owned (s.goto t pc) := by
  refine ⟨h.counted, h.fresh, h.nodup, h.exists_iff, h.listed, h.nodup_toDelete, h.toDelete,
    h.socketRest, h.messageRest, fun t' ↦ ?_⟩
  have hopener : (s.goto t pc).opener = Function.update s.opener t pc := rfl
  rw [hopener]
  by_cases ht : t' = t
  · rw [ht, Function.update_self]
    exact hpc
  · rw [Function.update_of_ne ht]
    exact h.opener t'

theorem Inv.finish (t : Opener) : Inv owned (s.finish t) := by
  have hidle : Inv owned (s.goto t .idle) := h.goto trivial
  exact hidle.withOther _ _ _

end

/-- What a thread knows of its node stays so when it keeps what it owns, and no node comes to life. -/
theorem OpenerSound.mono {count count' : NodePtr → Option ℤ} {nextPtr nextPtr' : NodePtr}
    {pc : OpenerPc} (h : OpenerSound owned count nextPtr t pc) (hnext : nextPtr ≤ nextPtr')
    (howned : ∀ p, (p, some t) ∈ owned → (p, some t) ∈ owned')
    (hcount : ∀ p < nextPtr, count' p ≠ none → count p ≠ none) :
    OpenerSound owned' count' nextPtr' t pc := by
  cases pc with
  | found task p => exact lt_of_lt_of_le h hnext
  | opened task fFound p writes =>
    cases fFound with
    | false =>
      obtain ⟨hlt, hwrites, howns⟩ := h
      exact ⟨hlt.trans_le hnext, hwrites, howns.imp_left (howned p)⟩
    | true =>
      obtain ⟨hlt, hwrites, howns⟩ := h
      exact ⟨hlt.trans_le hnext, hwrites, fun hmem hp ↦ howned p (howns hmem (hcount p hlt hp))⟩
  | _ => trivial

/-! ## A node changes -/

theorem counts_put_ne_none (hp : s.heap p = some node) (node' : PeerNode) {q : NodePtr}
    (hq : (s.put p node').counts q ≠ none) : s.counts q ≠ none := by
  rw [counts_put] at hq
  split_ifs at hq with hdying
  · exact hq
  · by_cases hqp : q = p
    · rw [hqp, counts_eq_some.2 ⟨hdying, node, hp, rfl⟩]
      exact Option.some_ne_none _
    · rwa [Function.update_of_ne hqp] at hq

theorem heap_put (s : Peers) (p : NodePtr) (node : PeerNode) :
    (s.put p node).heap = Function.update s.heap p (some node) := rfl

/-- Which nodes exist does not change. -/
theorem exists_put (hp : s.heap p = some node) (node' : PeerNode) (q : NodePtr) :
    (∃ node, (s.put p node').heap q = some node) ↔ ∃ node, s.heap q = some node := by
  rw [heap_put]
  by_cases hq : q = p
  · rw [hq, Function.update_self]
    exact ⟨fun _ ↦ ⟨node, hp⟩, fun _ ↦ ⟨node', rfl⟩⟩
  · rw [Function.update_of_ne hq]

/-- A node changes, and who owns the references to it, when a thread that opens connections goes on. -/
theorem Inv.update (h : Inv owned s) (hp : s.heap p = some node) {pc : OpenerPc}
    (hcounted : RefCount.Counted (s.put p node').counts
      (owned'.map Prod.fst ++ (s.socket.copies ++ s.message.copies)))
    (hlisted : ∀ q, (q, none) ∈ owned → (q, none) ∈ owned')
    (hself : p ∈ s.vNodes → (node'.fNetworkNode || node'.fInbound) = true → (p, none) ∈ owned')
    (hothers : ∀ t' ≠ t, ∀ q, (q, some t') ∈ owned → (q, some t') ∈ owned')
    (hpc : OpenerSound owned' s.counts s.nextPtr t pc) : Inv owned' ((s.put p node').goto t pc) := by
  have hlive : ∀ q < s.nextPtr, (s.put p node').counts q ≠ none → s.counts q ≠ none :=
    fun q _ hq ↦ counts_put_ne_none hp node' hq
  refine ⟨hcounted, fun q node₁ hq ↦ ?_, h.nodup,
    fun q ↦ (exists_put hp node' q).trans (h.exists_iff q), fun q hq node₁ hnode₁ hflag ↦ ?_,
    h.nodup_toDelete, h.toDelete, h.socketRest, h.messageRest, fun t' ↦ ?_⟩
  · obtain ⟨node₂, hnode₂⟩ := (exists_put hp node' q).1 ⟨node₁, hq⟩
    exact h.fresh q node₂ hnode₂
  · by_cases hqp : q = p
    · have hheap : (s.put p node').heap q = some node₁ := hnode₁
      rw [heap_put, hqp, Function.update_self] at hheap
      cases hheap
      exact hqp ▸ hself (hqp ▸ hq) hflag
    · have hheap : (s.put p node').heap q = some node₁ := hnode₁
      rw [heap_put, Function.update_of_ne hqp] at hheap
      exact hlisted q (h.listed q hq node₁ hheap hflag)
  · have hopener : ((s.put p node').goto t pc).opener = Function.update s.opener t pc := rfl
    rw [hopener]
    by_cases ht : t' = t
    · rw [ht, Function.update_self]
      exact hpc.mono le_rfl (fun _ hq ↦ hq) hlive
    · rw [Function.update_of_ne ht]
      exact (h.opener t').mono le_rfl (hothers t' ht) hlive

/-- A node changes, but neither its count nor what it is. -/
theorem Inv.put (h : Inv owned s) (hp : s.heap p = some node)
    (hcount : node'.nRefCount = node.nRefCount) (hnetwork : node'.fNetworkNode = node.fNetworkNode)
    (hinbound : node'.fInbound = node.fInbound) : Inv owned (s.put p node') := by
  have hcounts : (s.put p node').counts = s.counts := counts_put_same hp hcount
  refine ⟨by rw [hcounts]; exact h.counted, fun q node₁ hq ↦ ?_, h.nodup,
    fun q ↦ (exists_put hp node' q).trans (h.exists_iff q), fun q hq node₁ hnode₁ hflag ↦ ?_,
    h.nodup_toDelete, h.toDelete, h.socketRest, h.messageRest, by rw [hcounts]; exact h.opener⟩
  · obtain ⟨node₂, hnode₂⟩ := (exists_put hp node' q).1 ⟨node₁, hq⟩
    exact h.fresh q node₂ hnode₂
  · rw [heap_put] at hnode₁
    by_cases hqp : q = p
    · rw [hqp, Function.update_self] at hnode₁
      cases hnode₁
      rw [hnetwork, hinbound] at hflag
      exact h.listed q hq node (hqp ▸ hp) hflag
    · rw [Function.update_of_ne hqp] at hnode₁
      exact h.listed q hq node₁ hnode₁ hflag

/-! ## Looking at nodes -/

theorem derefAll_of {ps : List NodePtr} (hps : ∀ p ∈ ps, ∃ node, s.heap p = some node) :
    ∃ nodes, s.derefAll ps = .ok nodes := by
  induction ps with
  | nil => exact ⟨[], rfl⟩
  | cons p ps ih =>
    obtain ⟨node, hnode⟩ := hps p List.mem_cons_self
    obtain ⟨nodes, hnodes⟩ := ih fun q hq ↦ hps q (List.mem_cons_of_mem _ hq)
    exact ⟨node :: nodes, by rw [derefAll, deref_of hnode, hnodes]; rfl⟩

theorem findNode_of {ps : List NodePtr} (hps : ∀ p ∈ ps, ∃ node, s.heap p = some node)
    (wanted : PeerNode → Bool) : s.findNode wanted ps = .ok none ∨
      ∃ p ∈ ps, s.findNode wanted ps = .ok (some p) := by
  induction ps with
  | nil => exact .inl rfl
  | cons p ps ih =>
    obtain ⟨node, hnode⟩ := hps p List.mem_cons_self
    rw [findNode, deref_of hnode]
    by_cases hwanted : wanted node = true
    · exact .inr ⟨p, List.mem_cons_self, if_pos hwanted⟩
    · have hrest : (do
          let node ← (.ok node : Except PeerFault PeerNode)
          if wanted node = true then return some p else s.findNode wanted ps) =
          s.findNode wanted ps := if_neg hwanted
      rw [hrest]
      rcases ih fun q hq ↦ hps q (List.mem_cons_of_mem _ hq) with hnone | ⟨q, hq, hsome⟩
      · exact .inl hnone
      · exact .inr ⟨q, List.mem_cons_of_mem _ hq, hsome⟩

/-- The counts change. -/
def recount (s : Peers) (k : NodePtr → ℤ) : Peers :=
  { s with
    heap := fun p ↦ (s.heap p).map fun node ↦ { node with nRefCount := node.nRefCount + k p } }

theorem exists_recount (s : Peers) (k : NodePtr → ℤ) (p : NodePtr) :
    (∃ node, (s.recount k).heap p = some node) ↔ ∃ node, s.heap p = some node := by
  rw [recount]
  cases hnode : s.heap p with
  | none => simp only [hnode, Option.map_none]
  | some node => simp only [hnode, Option.map_some, Option.some.injEq, exists_eq']

theorem recount_eq {k : NodePtr → ℤ} {heap : NodePtr → Option PeerNode}
    (hheap : ∀ p, (s.heap p).map (fun node ↦ { node with nRefCount := node.nRefCount + k p }) = heap p) :
    s.recount k = { s with heap } := by
  rw [recount, funext hheap]

/-- What becomes of the nodes of a list when the counts of all of them change by `d`. -/
theorem modifyAll_of (d : ℤ) {ps : List NodePtr}
    (hps : ∀ p ∈ ps, ∃ node, s.heap p = some node) :
    modifyAll (fun node ↦ { node with nRefCount := node.nRefCount + d }) ps s =
      .ok (s.recount fun p ↦ d * ps.count p) := by
  induction ps generalizing s with
  | nil =>
    have hsame : s.recount (fun p ↦ d * List.count p []) = { s with heap := s.heap } := by
      refine recount_eq fun p ↦ ?_
      cases s.heap p with
      | none => rfl
      | some node => rw [Option.map_some, List.count_nil, Nat.cast_zero, mul_zero, add_zero]
    rw [hsame]
    rfl
  | cons p ps ih =>
    obtain ⟨node, hnode⟩ := hps p List.mem_cons_self
    rw [modifyAll, modify_of hnode]
    have hrest := ih (s := s.put p { node with nRefCount := node.nRefCount + d }) fun q hq ↦
      (exists_put hnode _ q).2 (hps q (List.mem_cons_of_mem _ hq))
    refine hrest.trans (congrArg Except.ok (recount_eq fun q ↦ ?_))
    rw [heap_put]
    by_cases hq : q = p
    · have hsum : node.nRefCount + d + d * (ps.count p : ℤ) =
          node.nRefCount + d * ((p :: ps).count p : ℤ) := by
        rw [List.count_cons_self]
        push_cast
        ring
      rw [hq, Function.update_self, hnode, Option.map_some, Option.map_some]
      dsimp only
      rw [hsum]
    · rw [Function.update_of_ne hq]
      dsimp only
      rw [List.count_cons_of_ne (Ne.symm hq)]

/-! ## The threads go on -/

/-- Two threads are somewhere else, with the same references. -/
theorem Inv.withPc (h : Inv owned s) {socket : SocketPc} {message : MessagePc}
    (hcopies : socket.copies ++ message.copies = s.socket.copies ++ s.message.copies)
    (hdying : socket.dying = s.socket.dying) (hnodup : socket.toDelete.Nodup)
    (htoDelete : ∀ p ∈ socket.toDelete, p ∈ s.vNodesDisconnected)
    (hsocket : ∀ p ∈ socket.rest, p ∈ socket.copies)
    (hmessage : ∀ p ∈ message.rest, p ∈ message.copies) :
    Inv owned { s with socket, message } := by
  have hcounts : counts { s with socket, message } = s.counts := by
    funext p
    rw [counts, counts, hdying]
  refine ⟨?_, h.fresh, h.nodup, h.exists_iff, h.listed, hnodup, htoDelete, hsocket, hmessage, ?_⟩
  · rw [hcounts, hcopies]
    exact h.counted
  · rw [hcounts]
    exact h.opener

/-- References are taken or given back, and all counts change accordingly. -/
theorem Inv.recount (h : Inv owned s) {socket : SocketPc} {message : MessagePc} {k : NodePtr → ℤ}
    (hcounted : RefCount.Counted (fun p ↦ (s.counts p).map (· + k p))
      (owned.map Prod.fst ++ (socket.copies ++ message.copies)))
    (hdying : socket.dying = s.socket.dying) (hnodup : socket.toDelete.Nodup)
    (htoDelete : ∀ p ∈ socket.toDelete, p ∈ s.vNodesDisconnected)
    (hsocket : ∀ p ∈ socket.rest, p ∈ socket.copies)
    (hmessage : ∀ p ∈ message.rest, p ∈ message.copies) :
    Inv owned { s.recount k with socket, message } := by
  have hcounts : counts { s.recount k with socket, message } =
      fun p ↦ (s.counts p).map (· + k p) := by
    funext p
    rw [counts, counts, hdying]
    split_ifs
    · rfl
    · rw [Peers.recount, Option.map_map, Option.map_map]
      rfl
  refine ⟨by rw [hcounts]; exact hcounted, fun p node hp ↦ ?_, h.nodup, fun p ↦ ?_,
    fun p hp node hnode hflag ↦ ?_, hnodup, htoDelete, hsocket, hmessage, fun t ↦ ?_⟩
  · obtain ⟨node, hnode, -⟩ := Option.map_eq_some_iff.1 hp
    exact h.fresh p node hnode
  · exact (exists_recount s k p).trans (h.exists_iff p)
  · obtain ⟨node, hnode', rfl⟩ := Option.map_eq_some_iff.1 hnode
    exact h.listed p hp node hnode' hflag
  · rw [hcounts]
    refine (h.opener t).mono le_rfl (fun _ hp ↦ hp) fun p _ hp hnone ↦ hp ?_
    rw [hnone, Option.map_none]

/-- A new node is put into the list, with its first reference. -/
theorem Inv.push (h : Inv owned s) {who : Option Opener} {socket : SocketPc}
    (hcopies : socket.copies = s.socket.copies) (hdying : socket.dying = s.socket.dying)
    (htoDelete : socket.toDelete = s.socket.toDelete) (hrest : socket.rest = s.socket.rest)
    (hcount : node.nRefCount = 1) (hflag : (node.fNetworkNode || node.fInbound) = true → who = none) :
    Inv ((s.nextPtr, who) :: owned) { s.push node with socket } := by
  have hheap : (s.push node).heap = Function.update s.heap s.nextPtr (some node) := rfl
  have hnot : s.nextPtr ∉ s.vNodes ++ s.vNodesDisconnected := h.nextPtr_not_mem
  have hnotdying : s.socket.dying ≠ some s.nextPtr := fun hd ↦
    hnot (List.mem_append_right _ (h.dying_mem hd))
  have hcounts : counts { s.push node with socket } =
      Function.update s.counts s.nextPtr (some 1) := by
    have hput := counts_put s s.nextPtr node
    rw [if_neg hnotdying, hcount] at hput
    rw [← hput]
    funext p
    rw [counts, counts, hdying]
    rfl
  have hexists : ∀ p, (∃ node₁, (s.push node).heap p = some node₁) ↔
      p = s.nextPtr ∨ ∃ node₁, s.heap p = some node₁ := by
    intro p
    rw [hheap]
    by_cases hp : p = s.nextPtr
    · rw [hp, Function.update_self]
      exact ⟨fun _ ↦ .inl rfl, fun _ ↦ ⟨node, rfl⟩⟩
    · rw [Function.update_of_ne hp]
      exact ⟨.inr, fun hor ↦ hor.resolve_left hp⟩
  refine ⟨?_, fun p node₁ hp ↦ ?_, ?_, fun p ↦ ?_, fun p hp node₁ hnode₁ hflag₁ ↦ ?_, ?_, ?_, ?_,
    h.messageRest, fun t' ↦ ?_⟩
  · rw [hcounts, hcopies, List.map_cons, List.cons_append]
    refine h.counted.create ?_
    rw [counts, if_neg hnotdying, h.nextPtr_none, Option.map_none]
  · change p < s.nextPtr + 1
    rcases (hexists p).1 ⟨node₁, hp⟩ with rfl | ⟨node₂, hnode₂⟩
    · exact Nat.lt_succ_self _
    · exact Nat.lt_succ_of_lt (h.fresh p node₂ hnode₂)
  · change (s.vNodes ++ [s.nextPtr] ++ s.vNodesDisconnected).Nodup
    rw [List.append_assoc]
    refine (List.perm_middle.nodup_iff).2 (List.nodup_cons.2 ⟨hnot, h.nodup⟩)
  · change (∃ node₁, (s.push node).heap p = some node₁) ↔
      p ∈ s.vNodes ++ [s.nextPtr] ++ s.vNodesDisconnected
    rw [hexists, h.exists_iff, List.append_assoc, List.singleton_append, List.perm_middle.mem_iff]
    exact List.mem_cons.symm
  · have hnode₁ : (s.push node).heap p = some node₁ := hnode₁
    rw [hheap] at hnode₁
    by_cases hpn : p = s.nextPtr
    · rw [hpn, Function.update_self] at hnode₁
      cases hnode₁
      rw [hpn, hflag hflag₁]
      exact List.mem_cons_self
    · rw [Function.update_of_ne hpn] at hnode₁
      have hp' : p ∈ s.vNodes := by
        rcases List.mem_append.1 hp with hp | hp
        · exact hp
        · exact absurd (List.mem_singleton.1 hp) hpn
      exact List.mem_cons_of_mem _ (h.listed p hp' node₁ hnode₁ hflag₁)
  · rw [show ({ s.push node with socket } : Peers).socket = socket from rfl, htoDelete]
    exact h.nodup_toDelete
  · rw [show ({ s.push node with socket } : Peers).socket = socket from rfl, htoDelete]
    exact h.toDelete
  · rw [show ({ s.push node with socket } : Peers).socket = socket from rfl, hrest, hcopies]
    exact h.socketRest
  · rw [hcounts]
    refine (h.opener t').mono (Nat.le_succ _) (fun _ hp ↦ List.mem_cons_of_mem _ hp) fun p hp hq ↦ ?_
    rwa [Function.update_of_ne hp.ne] at hq

/-! ## The thread of the sockets -/

theorem getRefCount_of (h : 0 ≤ node.nRefCount) : node.getRefCount = .ok node.nRefCount := if_pos h

theorem nRefCount_disconnect (node : PeerNode) : node.disconnect.nRefCount =
    if (node.fNetworkNode || node.fInbound) = true then node.nRefCount - 1 else node.nRefCount := rfl

/-- The count of a node that exists is not negative. -/
theorem Inv.nonneg (h : Inv owned s) (hdying : s.socket.dying ≠ some p) (hp : s.heap p = some node) :
    0 ≤ node.nRefCount :=
  h.counted.nonneg (counts_eq_some.2 ⟨hdying, node, hp, rfl⟩)

/-- Members of a list without duplicates are moved behind another. -/
theorem mem_filter_ne_append {l l' : List NodePtr} (hp : p ∈ l) (q : NodePtr) :
    q ∈ l.filter (· ≠ p) ++ (l' ++ [p]) ↔ q ∈ l ++ l' := by
  simp only [List.mem_append, List.mem_filter, decide_eq_true_eq, List.mem_singleton]
  constructor
  · rintro (⟨hq, -⟩ | hq | rfl)
    · exact .inl hq
    · exact .inr hq
    · exact .inl hp
  · rintro (hq | hq)
    · by_cases hqp : q = p
      · exact .inr (.inr hqp)
      · exact .inl ⟨hq, hqp⟩
    · exact .inr (.inl hq)

theorem nodup_filter_ne_append {l l' : List NodePtr} (h : (l ++ l').Nodup) (hp : p ∈ l) :
    (l.filter (· ≠ p) ++ (l' ++ [p])).Nodup := by
  have hdisjoint := List.disjoint_of_nodup_append h
  obtain ⟨hl, hl', -⟩ := List.nodup_append.1 h
  refine List.Nodup.append (hl.filter _) ?_ ?_
  · refine List.Nodup.append hl' (List.nodup_singleton p) ?_
    rintro q hq hqp
    exact hdisjoint hp (List.mem_singleton.1 hqp ▸ hq)
  · intro q hq hq'
    obtain ⟨hq, hne⟩ := List.mem_filter.1 hq
    rcases List.mem_append.1 hq' with hq' | hq'
    · exact hdisjoint hq hq'
    · exact of_decide_eq_true hne (List.mem_singleton.1 hq')

/-- A node is taken out of `vNodes`, and its first reference is given back if it has been left to the
list. -/
theorem Inv.disconnected (h : Inv owned s) (hsocket : s.socket = .disconnect) (hp : p ∈ s.vNodes)
    (hnode : s.heap p = some node) (semOutbound : ℤ) : ∃ owned', Inv owned'
      { s.put p node.disconnect with
        vNodes := s.vNodes.filter (· ≠ p)
        vNodesDisconnected := s.vNodesDisconnected ++ [p]
        semOutbound } := by
  have hnotdying : ∀ q, s.socket.dying ≠ some q := not_dying (congrArg SocketPc.dying hsocket)
  have hcounts : (s.put p node.disconnect).counts =
      Function.update s.counts p (some node.disconnect.nRefCount) := by
    rw [counts_put, if_neg (hnotdying p)]
  have hlive : ∀ q < s.nextPtr, (s.put p node.disconnect).counts q ≠ none → s.counts q ≠ none :=
    fun q _ hq ↦ counts_put_ne_none hnode _ hq
  have hcount : s.counts p = some node.nRefCount := counts_eq_some.2 ⟨hnotdying p, node, hnode, rfl⟩
  -- all but the references and who owns them
  have hrest : ∀ owned', RefCount.Counted (s.put p node.disconnect).counts
        (owned'.map Prod.fst ++ (s.socket.copies ++ s.message.copies)) →
      (∀ q who, q ≠ p → (q, who) ∈ owned → (q, who) ∈ owned') →
      (∀ t, (p, some t) ∈ owned → (p, some t) ∈ owned') → Inv owned'
        { s.put p node.disconnect with
          vNodes := s.vNodes.filter (· ≠ p)
          vNodesDisconnected := s.vNodesDisconnected ++ [p]
          semOutbound } := by
    intro owned' hcounted hothers hself
    refine ⟨hcounted, fun q node₁ hq ↦ ?_, nodup_filter_ne_append h.nodup hp, fun q ↦ ?_,
      fun q hq node₁ hnode₁ hflag ↦ ?_, h.nodup_toDelete, ?_, h.socketRest, h.messageRest, fun t ↦ ?_⟩
    · obtain ⟨node₂, hnode₂⟩ := (exists_put hnode _ q).1 ⟨node₁, hq⟩
      exact h.fresh q node₂ hnode₂
    · exact (exists_put hnode _ q).trans ((h.exists_iff q).trans (mem_filter_ne_append hp q).symm)
    · obtain ⟨hq, hne⟩ := List.mem_filter.1 hq
      have hqp : q ≠ p := of_decide_eq_true hne
      have hheap : (s.put p node.disconnect).heap q = some node₁ := hnode₁
      rw [heap_put, Function.update_of_ne hqp] at hheap
      exact hothers q none hqp (h.listed q hq node₁ hheap hflag)
    · rw [show ({ s.put p node.disconnect with
          vNodes := s.vNodes.filter (· ≠ p)
          vNodesDisconnected := s.vNodesDisconnected ++ [p]
          semOutbound } : Peers).socket = .disconnect from hsocket]
      exact List.forall_mem_nil _
    · refine (h.opener t).mono le_rfl (fun q hq ↦ ?_) hlive
      by_cases hqp : q = p
      · subst hqp
        exact hself t hq
      · exact hothers q (some t) hqp hq
  by_cases hflag : (node.fNetworkNode || node.fInbound) = true
  · have hmem := h.listed p hp node hnode hflag
    refine ⟨owned.erase (p, none), hrest _ ?_ (fun q who hqp hq ↦ ?_) fun t hq ↦ ?_⟩
    · have hperm : (owned.map Prod.fst ++ (s.socket.copies ++ s.message.copies)).Perm
          (p :: ((owned.erase (p, none)).map Prod.fst ++ (s.socket.copies ++ s.message.copies))) :=
        ((List.perm_cons_erase hmem).map Prod.fst).append_right _
      rw [hcounts, nRefCount_disconnect, if_pos hflag]
      exact (h.counted.perm hperm).release hcount
    · exact (List.mem_erase_of_ne fun heq ↦ hqp (congrArg Prod.fst heq)).2 hq
    · refine (List.mem_erase_of_ne fun heq ↦ ?_).2 hq
      cases congrArg Prod.snd heq
  · refine ⟨owned, hrest _ ?_ (fun _ _ _ hq ↦ hq) fun _ hq ↦ hq⟩
    rw [hcounts, nRefCount_disconnect, if_neg hflag, Function.update_eq_self_iff.2 hcount.symm]
    exact h.counted

theorem Inv.disconnectNode (h : Inv owned s) (hsocket : s.socket = .disconnect) (hp : p ∈ s.vNodes)
    (fUnused : NodePtr → Bool) : ∃ owned' s', s.disconnectNode fUnused p = .ok s' ∧ Inv owned' s' ∧
      s'.socket = .disconnect ∧ ∀ q ∈ s.vNodes, q ≠ p → q ∈ s'.vNodes := by
  obtain ⟨node, hnode⟩ := h.exists_of_vNodes hp
  have hcount := getRefCount_of (h.nonneg (h.not_dying_of_vNodes hp) hnode)
  obtain ⟨fDue, hdue⟩ : ∃ fDue, node.isDue (fUnused p) = .ok fDue := by
    rw [PeerNode.isDue]
    split_ifs
    · exact ⟨true, rfl⟩
    · rw [hcount]
      exact ⟨_, rfl⟩
  have hstep : s.disconnectNode fUnused p = (do
      if ← (.ok fDue : Except PeerFault Bool) then
        return { s.put p node.disconnect with
          vNodes := s.vNodes.filter (· ≠ p)
          vNodesDisconnected := s.vNodesDisconnected ++ [p]
          semOutbound := s.semOutbound + if node.grantOutbound then 1 else 0 }
      else return s) := by
    rw [Peers.disconnectNode, deref_of hnode, ← hdue]
    rfl
  rw [hstep]
  cases fDue with
  | false => exact ⟨owned, s, rfl, h, hsocket, fun q hq _ ↦ hq⟩
  | true =>
    obtain ⟨owned', h'⟩ := h.disconnected hsocket hp hnode
      (s.semOutbound + if node.grantOutbound then 1 else 0)
    exact ⟨owned', _, rfl, h', hsocket, fun q hq hqp ↦ List.mem_filter.2 ⟨hq, decide_eq_true hqp⟩⟩

theorem Inv.disconnectNodes (fUnused : NodePtr → Bool) (ps : List NodePtr) :
    ∀ {owned : List (NodePtr × Option Opener)} {s : Peers}, Inv owned s → s.socket = .disconnect →
      ps.Nodup → (∀ p ∈ ps, p ∈ s.vNodes) → ∃ owned' s', disconnectNodes fUnused ps s = .ok s' ∧
        Inv owned' s' ∧ s'.socket = .disconnect := by
  induction ps with
  | nil => exact fun {owned s} h hsocket _ _ ↦ ⟨owned, s, rfl, h, hsocket⟩
  | cons p ps ih =>
    intro owned s h hsocket hnodup hps
    obtain ⟨hnot, hnodup⟩ := List.nodup_cons.1 hnodup
    obtain ⟨owned', s', hs', h', hsocket', hkeep⟩ :=
      h.disconnectNode hsocket (hps p List.mem_cons_self) fUnused
    rw [Peers.disconnectNodes, hs']
    refine ih h' hsocket' hnodup fun q hq ↦ hkeep q (hps q (List.mem_cons_of_mem _ hq)) ?_
    rintro rfl
    exact hnot hq

theorem Safe.of_eq_ok {unguarded : Prop} {r : Except PeerFault Peers} {s' : Peers} (hr : r = .ok s')
    (h : Inv owned s') : Safe unguarded r := by
  rw [hr]
  exact ⟨owned, h⟩

/-- `AddRef` and `Release`, on a list of nodes. -/
theorem addRefs_of {ps : List NodePtr} (hps : ∀ p ∈ ps, ∃ node, s.heap p = some node) :
    modifyAll PeerNode.addRef ps s = .ok (s.recount fun p ↦ ps.count p) := by
  have hadd := modifyAll_of 1 hps
  simp only [one_mul] at hadd
  exact hadd

theorem releaseAll_of {ps : List NodePtr}
    (hps : ∀ p ∈ ps, ∃ node, s.heap p = some node) :
    modifyAll PeerNode.release ps s = .ok (s.recount fun p ↦ -(ps.count p : ℤ)) := by
  have hrelease := modifyAll_of (-1) hps
  simp only [neg_one_mul] at hrelease
  exact hrelease

/-- References to all of `vNodes` are taken. -/
theorem Inv.counted_addRefs (h : Inv owned s) : RefCount.Counted
    (fun p ↦ (s.counts p).map (· + (s.vNodes.count p : ℤ)))
    (s.vNodes ++ (owned.map Prod.fst ++ (s.socket.copies ++ s.message.copies))) := by
  refine h.counted.addRefs fun p hp ↦ ?_
  obtain ⟨node, hnode⟩ := h.exists_of_vNodes hp
  exact ⟨_, counts_eq_some.2 ⟨h.not_dying_of_vNodes hp, node, hnode, rfl⟩⟩

/-- The node at which the thread of the sockets is will be deleted next, and not before. -/
theorem Inv.checked (h : Inv owned s) {rest : List NodePtr} (hsocket : s.socket = .delete (p :: rest))
    (hnode : s.heap p = some node) (hn : node.nRefCount ≤ 0) :
    Inv owned { s with socket := .deleting p rest } := by
  have hdying : s.socket.dying = none := by rw [hsocket]; rfl
  have hdelete : s.socket.toDelete = p :: rest := by rw [hsocket]; rfl
  have hcounts : counts { s with socket := .deleting p rest } =
      Function.update s.counts p none := by
    funext q
    rw [counts]
    by_cases hq : q = p
    · rw [hq, Function.update_self]
      exact if_pos rfl
    · rw [Function.update_of_ne hq, counts, if_neg (not_dying hdying q)]
      exact if_neg fun heq ↦ hq (Option.some.inj heq).symm
  have hcount := counts_eq_some.2 ⟨not_dying hdying p, node, hnode, rfl⟩
  have hcopies : s.socket.copies = [] := by rw [hsocket]; rfl
  refine ⟨?_, h.fresh, h.nodup, h.exists_iff, h.listed, ?_, ?_, fun q hq ↦ absurd hq List.not_mem_nil,
    h.messageRest, fun t ↦ ?_⟩
  · have hcounted := h.counted
    rw [hcopies] at hcounted
    rw [hcounts]
    exact hcounted.delete (hcounted.not_mem hcount hn)
  · have hnodup := h.nodup_toDelete
    rwa [hdelete] at hnodup
  · have hmem := h.toDelete
    rwa [hdelete] at hmem
  · rw [hcounts]
    refine (h.opener t).mono le_rfl (fun _ hq ↦ hq) fun q _ hq hnone ↦ hq ?_
    by_cases hqp : q = p
    · rw [hqp, Function.update_self]
    · rw [Function.update_of_ne hqp, hnone]

/-- The node is deleted. -/
theorem Inv.deleted (h : Inv owned s) {rest : List NodePtr} (hsocket : s.socket = .deleting p rest)
    (semOutbound : ℤ) : Inv owned { s with
      heap := Function.update s.heap p none
      vNodesDisconnected := s.vNodesDisconnected.filter (· ≠ p)
      semOutbound
      socket := .delete rest } := by
  have hdying : s.socket.dying = some p := by rw [hsocket]; rfl
  have hdelete : s.socket.toDelete = p :: rest := by rw [hsocket]; rfl
  have hcopies : s.socket.copies = [] := by rw [hsocket]; rfl
  have hmem := h.dying_mem hdying
  obtain ⟨hnot, hnodup⟩ := List.nodup_cons.1 (hdelete ▸ h.nodup_toDelete)
  have hcounts : counts { s with
      heap := Function.update s.heap p none
      vNodesDisconnected := s.vNodesDisconnected.filter (· ≠ p)
      semOutbound
      socket := .delete rest } = s.counts := by
    funext q
    rw [counts, counts, hdying]
    by_cases hq : q = p
    · have hnone : Function.update s.heap p none p = none := Function.update_self ..
      rw [hq, if_pos rfl]
      exact congrArg (Option.map _) hnone
    · have hsame : Function.update s.heap p none q = s.heap q := Function.update_of_ne hq ..
      rw [if_neg fun heq ↦ hq (Option.some.inj heq).symm]
      exact congrArg (Option.map _) hsame
  have hfilter : ∀ q ∈ s.vNodesDisconnected, q ≠ p → q ∈ s.vNodesDisconnected.filter (· ≠ p) :=
    fun q hq hqp ↦ List.mem_filter.2 ⟨hq, decide_eq_true hqp⟩
  refine ⟨?_, fun q node hq ↦ ?_, ?_, fun q ↦ ?_, fun q hq node hnode ↦ ?_, hnodup, fun q hq ↦ ?_,
    fun q hq ↦ absurd hq List.not_mem_nil, h.messageRest, ?_⟩
  · have hcounted := h.counted
    rw [hcopies] at hcounted
    rw [hcounts]
    exact hcounted
  · have hheap : Function.update s.heap p none q = some node := hq
    by_cases hqp : q = p
    · rw [hqp, Function.update_self] at hheap
      cases hheap
    · rw [Function.update_of_ne hqp] at hheap
      exact h.fresh q node hheap
  · exact h.nodup.sublist (List.Sublist.append_left List.filter_sublist _)
  · change (∃ node, Function.update s.heap p none q = some node) ↔
      q ∈ s.vNodes ++ s.vNodesDisconnected.filter (· ≠ p)
    by_cases hqp : q = p
    · rw [hqp, Function.update_self]
      constructor
      · rintro ⟨node, hnode⟩
        cases hnode
      · intro hq
        rcases List.mem_append.1 hq with hq | hq
        · exact absurd hmem (h.not_mem_disconnected hq)
        · exact absurd rfl (of_decide_eq_true (List.mem_filter.1 hq).2)
    · rw [Function.update_of_ne hqp, h.exists_iff, List.mem_append, List.mem_append]
      exact or_congr_right ⟨fun hq ↦ hfilter q hq hqp, fun hq ↦ (List.mem_filter.1 hq).1⟩
  · have hqp : q ≠ p := fun heq ↦ h.not_mem_disconnected hq (heq ▸ hmem)
    have hheap : Function.update s.heap p none q = some node := hnode
    rw [Function.update_of_ne hqp] at hheap
    exact h.listed q hq node hheap
  · refine hfilter q (h.toDelete q (hdelete ▸ List.mem_cons_of_mem _ hq)) ?_
    rintro rfl
    exact hnot hq
  · rw [hcounts]
    exact h.opener

theorem Inv.socketStep (h : Inv owned s) (e : SocketEvent) : Safe False (s.socketStep A e) := by
  rw [Peers.socketStep.eq_def]
  split
  · -- disconnect
    rename_i fUnused hsocket
    obtain ⟨hnodup, -, -⟩ := List.nodup_append.1 h.nodup
    obtain ⟨owned', s', hs', h', hsocket'⟩ :=
      h.disconnectNodes fUnused s.vNodes hsocket hnodup fun _ hp ↦ hp
    rw [hs']
    have hcopies : s'.socket.copies = [] := by rw [hsocket']; rfl
    obtain ⟨-, hnodup', -⟩ := List.nodup_append.1 h'.nodup
    refine ⟨owned', h'.withPc ?_ ?_ hnodup' (fun _ hp ↦ hp) (List.forall_mem_nil _) h'.messageRest⟩
    · rw [hcopies]
      rfl
    · rw [hsocket']
      rfl
  · -- look at one that has been disconnected
    rename_i p rest fLocked hsocket
    have hdelete : s.socket.toDelete = p :: rest := by rw [hsocket]; rfl
    have hdying : s.socket.dying = none := by rw [hsocket]; rfl
    have hcopies : s.socket.copies = [] := by rw [hsocket]; rfl
    have hmem := h.toDelete
    have hnodup := h.nodup_toDelete
    rw [hdelete] at hmem hnodup
    obtain ⟨node, hnode⟩ := h.exists_of_disconnected (hmem p List.mem_cons_self)
    have hcount := getRefCount_of (h.nonneg (not_dying hdying p) hnode)
    rw [deref_of hnode]
    refine Safe.of_eq_ok (r := node.getRefCount >>= _) (by rw [hcount]; rfl) (?_ : Inv owned _)
    by_cases hn : (decide (node.nRefCount ≤ 0) && fLocked) = true
    · rw [if_pos hn]
      exact h.checked hsocket hnode (of_decide_eq_true (Bool.and_eq_true_iff.1 hn).1)
    · rw [if_neg hn]
      refine h.withPc (by rw [hcopies]; rfl) hdying.symm (List.nodup_cons.1 hnodup).2
        (fun q hq ↦ hmem q (List.mem_cons_of_mem _ hq)) (List.forall_mem_nil _) h.messageRest
  · -- delete it
    rename_i p rest hsocket
    have hdying : s.socket.dying = some p := by rw [hsocket]; rfl
    obtain ⟨node, hnode⟩ := h.exists_of_disconnected (h.dying_mem hdying)
    rw [deref_of hnode]
    exact ⟨owned, h.deleted hsocket _⟩
  · -- find which sockets have data
    rename_i hsocket
    obtain ⟨nodes, hnodes⟩ := derefAll_of (fun p hp ↦ h.exists_of_vNodes hp)
    have hcopies : s.socket.copies = [] := by rw [hsocket]; rfl
    rw [hnodes]
    refine ⟨owned, h.withPc (by rw [hcopies]; rfl) (by rw [hsocket]; rfl) List.nodup_nil
      (List.forall_mem_nil _) (List.forall_mem_nil _) h.messageRest⟩
  · -- a connection comes in
    rename_i addr nNow hsocket
    obtain ⟨nodes, hnodes⟩ := derefAll_of (fun p hp ↦ h.exists_of_vNodes hp)
    have hcopies : s.socket.copies = [] := by rw [hsocket]; rfl
    rw [hnodes]
    let s₁ : Peers := if A.nMaxConnections - MAX_OUTBOUND_CONNECTIONS ≤
        (nodes.filter PeerNode.fInbound).length then s else if s.isBanned addr.ip nNow = true then s
        else { s with socket := .accepting addr }
    have hstep : (if A.nMaxConnections - MAX_OUTBOUND_CONNECTIONS ≤
        (nodes.filter PeerNode.fInbound).length then (.ok s : Except PeerFault Peers)
        else if s.isBanned addr.ip nNow = true then .ok s
        else .ok { s with socket := .accepting addr }) = .ok s₁ := by
      dsimp only [s₁]
      split_ifs <;> rfl
    have hkeep : Inv owned s₁ := by
      dsimp only [s₁]
      split_ifs
      · exact h
      · exact h
      · exact h.withPc (by rw [hcopies]; rfl) (by rw [hsocket]; rfl) List.nodup_nil
          (List.forall_mem_nil _) (List.forall_mem_nil _) h.messageRest
    exact Safe.of_eq_ok hstep hkeep
  · -- it is put into the list
    rename_i addr hsocket
    have hpush : Inv ((s.nextPtr, none) :: owned)
        { s.push (.create A addr none true none) with socket := .accept } :=
      h.push (by rw [hsocket]; rfl) (by rw [hsocket]; rfl) (by rw [hsocket]; rfl)
        (by rw [hsocket]; rfl) rfl fun _ ↦ rfl
    exact ⟨_, hpush⟩
  · -- references are taken
    rename_i hsocket
    have hcopies : s.socket.copies = [] := by rw [hsocket]; rfl
    rw [addRefs_of fun p hp ↦ h.exists_of_vNodes hp]
    have hcounted := h.counted_addRefs
    rw [hcopies] at hcounted
    refine ⟨owned, h.recount (hcounted.perm ?_) (by rw [hsocket]; rfl) List.nodup_nil
      (List.forall_mem_nil _) (fun _ hp ↦ hp) h.messageRest⟩
    exact List.perm_append_comm_assoc ..
  · -- a socket is served
    rename_i vNodesCopy p rest fDisconnect hsocket
    have hrest : s.socket.rest = p :: rest := by rw [hsocket]; rfl
    have hsub : ∀ q ∈ p :: rest, q ∈ vNodesCopy := by
      have hsub := h.socketRest
      rw [hsocket] at hsub
      exact hsub
    obtain ⟨-, node, hnode⟩ := h.exists_of_socketRest (hrest ▸ List.mem_cons_self)
    rw [modify_of hnode]
    have hput : Inv owned (s.put p (if fDisconnect then node.close else node)) := by
      refine h.put hnode ?_ ?_ ?_ <;> split_ifs <;> rfl
    refine ⟨owned, hput.withPc ?_ ?_ List.nodup_nil (List.forall_mem_nil _)
      (fun q hq ↦ hsub q (List.mem_cons_of_mem _ hq)) hput.messageRest⟩
    · exact congrArg (· ++ s.message.copies) (congrArg SocketPc.copies hsocket).symm
    · exact (congrArg SocketPc.dying hsocket).symm
  · -- the references are given back
    rename_i vNodesCopy hsocket
    have hcopies : s.socket.copies = vNodesCopy := by rw [hsocket]; rfl
    have hcounted := h.counted
    rw [hcopies] at hcounted
    rw [releaseAll_of fun p hp ↦ (h.exists_of_ref (List.mem_append_right _
      (List.mem_append_left _ (hcopies ▸ hp)))).2]
    refine ⟨owned, h.recount ((hcounted.perm (List.perm_append_comm_assoc ..)).releaseAll)
      (by rw [hsocket]; rfl) List.nodup_nil (List.forall_mem_nil _) (List.forall_mem_nil _)
      h.messageRest⟩
  · exact ⟨owned, h⟩

/-! ## The thread of the messages -/

theorem Inv.misbehaving (h : Inv owned s) (hnode : s.heap p = some node) (fLocal : Bool)
    (howmuch nNow : ℤ) : ∃ s', s.misbehaving A p fLocal howmuch nNow = .ok s' ∧ Inv owned s' := by
  rw [Peers.misbehaving, deref_of hnode]
  by_cases hlocal : fLocal = true
  · exact ⟨s, if_pos hlocal, h⟩
  · by_cases hban : A.nBanScore ≤ node.nMisbehavior + howmuch
    · have hput : Inv owned (s.put p { node with nMisbehavior := node.nMisbehavior + howmuch }.close) :=
        h.put hnode rfl rfl rfl
      exact ⟨_, (if_neg hlocal).trans (if_pos hban), hput.withOther s.semOutbound _ s.grant⟩
    · have hput : Inv owned (s.put p { node with nMisbehavior := node.nMisbehavior + howmuch }) :=
        h.put hnode rfl rfl rfl
      exact ⟨_, (if_neg hlocal).trans (if_neg hban), hput⟩

/-- The thread of the messages goes on, with the same references. -/
theorem Inv.withMessage (h : Inv owned s) {message : MessagePc}
    (hcopies : message.copies = s.message.copies) (hrest : ∀ p ∈ message.rest, p ∈ message.copies) :
    Inv owned { s with message } :=
  h.withPc (congrArg (s.socket.copies ++ ·) hcopies) rfl h.nodup_toDelete h.toDelete h.socketRest hrest

theorem Inv.messageStep (h : Inv owned s) (e : MessageEvent) : Safe False (s.messageStep A e) := by
  rw [Peers.messageStep.eq_def]
  split
  · -- references are taken
    rename_i hmessage
    have hcopies : s.message.copies = [] := congrArg MessagePc.copies hmessage
    have hcounted := h.counted_addRefs
    rw [hcopies] at hcounted
    have htaken : Inv owned { s.recount fun p ↦ s.vNodes.count p with
        message := .serve s.vNodes s.vNodes } := by
      refine h.recount (hcounted.perm ?_) rfl h.nodup_toDelete h.toDelete h.socketRest fun _ hp ↦ hp
      rw [List.append_nil, ← List.append_assoc (owned.map Prod.fst)]
      exact List.perm_append_comm
    rw [addRefs_of fun p hp ↦ h.exists_of_vNodes hp]
    obtain ⟨nodes, hnodes⟩ := derefAll_of
      (fun p hp ↦ (exists_recount s _ p).2 (h.exists_of_vNodes hp))
    exact Safe.of_eq_ok (bind_eq_ok.2 ⟨_, rfl, bind_eq_ok.2 ⟨nodes, hnodes, rfl⟩⟩) htaken
  · -- a node is looked at
    rename_i vNodesCopy p rest hmessage
    have hsub : ∀ q ∈ p :: rest, q ∈ vNodesCopy := by
      have hsub := h.messageRest
      rw [hmessage] at hsub
      exact hsub
    have hrest : s.message.rest = p :: rest := congrArg MessagePc.rest hmessage
    obtain ⟨-, node, hnode⟩ := h.exists_of_messageRest (hrest ▸ List.mem_cons_self)
    rw [deref_of hnode]
    refine ⟨owned, h.withMessage ?_ ?_⟩
    · rw [hmessage]
      split_ifs <;> rfl
    · split_ifs
      · exact fun q hq ↦ hsub q (List.mem_cons_of_mem _ hq)
      · exact hsub
  · -- it misbehaves
    rename_i p vNodesCopy rest fLocal howmuch nNow hmessage
    have hrest : s.message.rest = p :: rest := congrArg MessagePc.rest hmessage
    obtain ⟨-, node, hnode⟩ := h.exists_of_messageRest (hrest ▸ List.mem_cons_self)
    obtain ⟨s', hs', h'⟩ := h.misbehaving (A := A) hnode fLocal howmuch nNow
    exact Safe.of_eq_ok hs' h'
  · -- its socket is closed
    rename_i p vNodesCopy rest hmessage
    have hrest : s.message.rest = p :: rest := congrArg MessagePc.rest hmessage
    obtain ⟨-, node, hnode⟩ := h.exists_of_messageRest (hrest ▸ List.mem_cons_self)
    exact Safe.of_eq_ok (modify_of hnode _) (h.put hnode rfl rfl rfl)
  · -- it is done
    rename_i p vNodesCopy rest hmessage
    have hsub : ∀ q ∈ p :: rest, q ∈ vNodesCopy := by
      have hsub := h.messageRest
      rw [hmessage] at hsub
      exact hsub
    have hrest : s.message.rest = p :: rest := congrArg MessagePc.rest hmessage
    obtain ⟨-, node, hnode⟩ := h.exists_of_messageRest (hrest ▸ List.mem_cons_self)
    rw [deref_of hnode]
    exact ⟨owned, h.withMessage (congrArg MessagePc.copies hmessage).symm
      fun q hq ↦ hsub q (List.mem_cons_of_mem _ hq)⟩
  · -- the references are given back
    rename_i vNodesCopy hmessage
    have hcopies : s.message.copies = vNodesCopy := congrArg MessagePc.copies hmessage
    have hcounted := h.counted
    rw [hcopies] at hcounted
    rw [releaseAll_of fun p hp ↦ (h.exists_of_ref (List.mem_append_right _
      (List.mem_append_right _ (hcopies ▸ hp)))).2]
    have hperm : (owned.map Prod.fst ++ (s.socket.copies ++ vNodesCopy)).Perm
        (vNodesCopy ++ (owned.map Prod.fst ++ (s.socket.copies ++ []))) := by
      rw [List.append_nil, ← List.append_assoc]
      exact List.perm_append_comm
    exact ⟨owned, h.recount (hcounted.perm hperm).releaseAll rfl h.nodup_toDelete h.toDelete
      h.socketRest (List.forall_mem_nil _)⟩
  · exact ⟨owned, h⟩

/-! ## The threads that open connections -/

theorem openerSound_start (A : PeerArgs) (task : Task) {count : NodePtr → Option ℤ}
    {nextPtr : NodePtr} : OpenerSound owned count nextPtr t (task.start A) := by
  cases task <;> trivial

/-- After `fNetworkNode`, there is at most `fOneShot` to write. -/
theorem writes_after {task : Task} {fFound : Bool} {ws : List OpenWrite}
    (h : .fNetworkNode :: ws <:+ task.writes fFound) : ∀ w ∈ ws, w = .fOneShot := by
  cases task <;> cases fFound <;>
    simp [Task.writes, Task.fOpen, Task.fGrant, Task.fOneShot, List.suffix_cons_iff] at h <;>
    simp [h]

/-- A new node is that of the thread which creates it. -/
theorem Inv.create (h : Inv owned s) {task : Task} {addr : CService} : Inv
    ((s.nextPtr, some t) :: owned) ((s.push (.create A addr task.strDest false (some task))).goto t
      (.opened task false s.nextPtr (task.writes false))) := by
  have hpush : Inv ((s.nextPtr, some t) :: owned)
      (s.push (.create A addr task.strDest false (some task))) :=
    h.push rfl rfl rfl rfl rfl
      fun hflag ↦ absurd hflag Bool.false_ne_true
  exact hpush.goto ⟨Nat.lt_succ_self _, List.suffix_rfl, .inl List.mem_cons_self⟩

/-- A reference to a node that has been found is taken; it is in time, unless the node is about to be
deleted. -/
theorem Inv.addRef (h : Inv owned s) (hnode : s.heap p = some node) (hlt : p < s.nextPtr) (task : Task) :
    ∃ owned', Inv owned' ((s.put p node.addRef).goto t (.opened task true p (task.writes true))) := by
  have hadd : node.addRef.nRefCount = node.nRefCount + 1 := rfl
  by_cases hdying : s.socket.dying = some p
  · have hcounts : (s.put p node.addRef).counts = s.counts := by rw [counts_put, if_pos hdying]
    have hdead : s.counts p = none := if_pos hdying
    refine ⟨owned, h.update hnode (by rw [hcounts]; exact h.counted) (fun _ hq ↦ hq)
      (fun hp ↦ absurd hdying (h.not_dying_of_vNodes hp)) (fun _ _ _ hq ↦ hq)
      ⟨hlt, List.suffix_rfl, fun _ hp ↦ absurd hdead hp⟩⟩
  · have hcount := counts_eq_some.2 ⟨hdying, node, hnode, rfl⟩
    refine ⟨(p, some t) :: owned, h.update hnode ?_ (fun _ hq ↦ List.mem_cons_of_mem _ hq)
      (fun hp hflag ↦ List.mem_cons_of_mem _ (h.listed p hp node hnode hflag))
      (fun _ _ _ hq ↦ List.mem_cons_of_mem _ hq)
      ⟨hlt, List.suffix_rfl, fun _ _ ↦ List.mem_cons_self⟩⟩
    rw [counts_put, if_neg hdying, hadd]
    exact h.counted.addRef hcount

/-- What is left of the writes is known of the node as before, unless the thread leaves it. -/
theorem OpenerSound.next {task : Task} {fFound : Bool} {w : OpenWrite} {ws : List OpenWrite}
    {count : NodePtr → Option ℤ} {nextPtr : NodePtr}
    (h : OpenerSound owned count nextPtr t (.opened task fFound p (w :: ws))) :
    OpenerSound owned count nextPtr t (.opened task fFound p ws) := by
  cases fFound with
  | false =>
    obtain ⟨hlt, hwrites, howns⟩ := h
    exact ⟨hlt, (List.suffix_cons w ws).trans hwrites,
      howns.imp_right fun hall v hv ↦ hall v (List.mem_cons_of_mem _ hv)⟩
  | true =>
    obtain ⟨hlt, hwrites, howns⟩ := h
    exact ⟨hlt, (List.suffix_cons w ws).trans hwrites, fun hmem ↦ howns (List.mem_cons_of_mem _ hmem)⟩

/-- A thread that is about to set `fNetworkNode` owns a reference, unless the node is about to be
deleted. -/
theorem OpenerSound.owns {task : Task} {fFound : Bool} {ws : List OpenWrite}
    {count : NodePtr → Option ℤ} {nextPtr : NodePtr}
    (h : OpenerSound owned count nextPtr t (.opened task fFound p (.fNetworkNode :: ws)))
    (hp : count p ≠ none) : (p, some t) ∈ owned := by
  cases fFound with
  | false =>
    obtain ⟨-, -, howns | hall⟩ := h
    · exact howns
    · cases hall _ List.mem_cons_self
  | true =>
    obtain ⟨-, -, howns⟩ := h
    exact howns List.mem_cons_self hp

/-- **`fNetworkNode` is set**: the thread leaves its reference to the list. -/
theorem Inv.setNetworkNode (h : Inv owned s) {task : Task} {fFound : Bool} {ws : List OpenWrite}
    (hopener : s.opener t = .opened task fFound p (.fNetworkNode :: ws))
    (hnode : s.heap p = some node) : ∃ owned', Inv owned'
      ((s.put p { node with fNetworkNode := true }).goto t (.opened task fFound p ws)) := by
  have hsound := h.opener t
  rw [hopener] at hsound
  have hcounts : (s.put p { node with fNetworkNode := true }).counts = s.counts :=
    counts_put_same hnode rfl
  -- the thread needs no reference any more
  have hafter : ∀ owned', OpenerSound owned' s.counts s.nextPtr t (.opened task fFound p ws) := by
    intro owned'
    cases fFound with
    | false =>
      obtain ⟨hlt, hwrites, -⟩ := hsound
      exact ⟨hlt, (List.suffix_cons _ ws).trans hwrites, .inr (writes_after hwrites)⟩
    | true =>
      obtain ⟨hlt, hwrites, -⟩ := hsound
      refine ⟨hlt, (List.suffix_cons _ ws).trans hwrites, fun hmem ↦ ?_⟩
      cases writes_after hwrites _ hmem
  by_cases hdying : s.socket.dying = some p
  · refine ⟨owned, h.update hnode (by rw [hcounts]; exact h.counted) (fun _ hq ↦ hq)
      (fun hp ↦ absurd hdying (h.not_dying_of_vNodes hp)) (fun _ _ _ hq ↦ hq) (hafter owned)⟩
  · have hcount := counts_eq_some.2 ⟨hdying, node, hnode, rfl⟩
    have hmem := hsound.owns (by rw [hcount]; exact Option.some_ne_none _)
    refine ⟨(p, none) :: owned.erase (p, some t), h.update hnode ?_ (fun q hq ↦ ?_)
      (fun _ _ ↦ List.mem_cons_self) (fun t' ht q hq ↦ ?_) (hafter _)⟩
    · rw [hcounts]
      exact h.counted.perm (((List.perm_cons_erase hmem).map Prod.fst).append_right _)
    · refine List.mem_cons_of_mem _ ((List.mem_erase_of_ne fun heq ↦ ?_).2 hq)
      cases congrArg Prod.snd heq
    · refine List.mem_cons_of_mem _ ((List.mem_erase_of_ne fun heq ↦ ht ?_).2 hq)
      exact Option.some.inj (congrArg Prod.snd heq)

/-- One of the writes: it may fail only where the thread has no reference. -/
theorem Inv.write (h : Inv owned s) {task : Task} {fFound : Bool} {w : OpenWrite}
    {ws : List OpenWrite} (hopener : s.opener t = .opened task fFound p (w :: ws)) :
    Safe (s.Unguarded t .write) (do
      let node ← s.deref p
      return (s.write t p node w).goto t (.opened task fFound p ws)) := by
  have hsound := h.opener t
  rw [hopener] at hsound
  cases hnode : s.heap p with
  | none =>
    rw [deref_of_none hnode]
    refine ⟨task, fFound, p, w, ws, hopener, ?_⟩
    cases fFound with
    | true => exact .inl rfl
    | false =>
      obtain ⟨-, -, howns | hall⟩ := hsound
      · obtain ⟨-, node, hnode'⟩ := h.exists_of_owned howns
        cases hnode.symm.trans hnode'
      · exact .inr (hall w List.mem_cons_self)
  | some node =>
    rw [deref_of hnode]
    cases w with
    | nTimeConnected => exact ⟨owned, h.goto hsound.next⟩
    | grantOutbound =>
      have hcounts : (s.put p { node with grantOutbound := s.grant t }).counts = s.counts :=
        counts_put_same hnode rfl
      have hput : Inv owned (s.put p { node with grantOutbound := s.grant t }) :=
        h.put hnode rfl rfl rfl
      have hnext : Inv owned ((s.put p { node with grantOutbound := s.grant t }).goto t
          (.opened task fFound p ws)) := by
        refine hput.goto ?_
        rw [hcounts]
        exact hsound.next
      exact ⟨owned, hnext.withOther _ _ _⟩
    | fNetworkNode => exact h.setNetworkNode hopener hnode
    | fOneShot =>
      have hcounts : (s.put p { node with fOneShot := true }).counts = s.counts :=
        counts_put_same hnode rfl
      have hput : Inv owned (s.put p { node with fOneShot := true }) := h.put hnode rfl rfl rfl
      refine ⟨owned, hput.goto ?_⟩
      rw [hcounts]
      exact hsound.next

theorem Inv.connectNode (h : Inv owned s) (task : Task) (addr : CService) (fLocal : Bool) :
    Safe False (s.connectNode t task addr fLocal) := by
  rw [Peers.connectNode.eq_def]
  split
  · exact ⟨owned, h.goto trivial⟩
  · by_cases hlocal : fLocal = true
    · rw [if_pos hlocal]
      exact ⟨owned, h.finish t⟩
    · rw [if_neg hlocal]
      rcases findNode_of (fun p hp ↦ h.exists_of_vNodes hp) (fun node ↦ node.addr = addr) with
        hnone | ⟨p, hp, hsome⟩
      · rw [hnone]
        exact ⟨owned, h.goto trivial⟩
      · obtain ⟨node, hnode⟩ := h.exists_of_vNodes hp
        rw [hsome]
        exact ⟨owned, h.goto (h.fresh p node hnode)⟩

theorem Inv.passes (h : Inv owned s) (addr : CService) (fLocal : Bool) (nNow : ℤ) (check : OpenCheck) :
    ∃ fPasses, s.passes addr fLocal nNow check = .ok fPasses := by
  have hfind : ∀ wanted, ∃ found, s.findNode wanted s.vNodes = .ok found := by
    intro wanted
    rcases findNode_of (fun p hp ↦ h.exists_of_vNodes hp) wanted with hnone | ⟨p, -, hsome⟩
    · exact ⟨_, hnone⟩
    · exact ⟨_, hsome⟩
  cases check with
  | isLocal => exact ⟨_, rfl⟩
  | isBanned => exact ⟨_, rfl⟩
  | findIp =>
    obtain ⟨found, hfound⟩ := hfind fun node ↦ node.addr.ip = addr.ip
    exact ⟨_, bind_eq_ok.2 ⟨found, hfound, rfl⟩⟩
  | findName addrName =>
    obtain ⟨found, hfound⟩ := hfind fun node ↦ node.addrName = addrName
    exact ⟨_, bind_eq_ok.2 ⟨found, hfound, rfl⟩⟩

theorem Inv.openStep (h : Inv owned s) (t : Opener) (e : OpenEvent) :
    Safe (s.Unguarded t e) (s.openStep A t e) := by
  rw [Peers.openStep.eq_def]
  split
  · -- a task is taken up
    rename_i task hopener
    split_ifs
    · exact ⟨owned, h⟩
    · exact ⟨owned, h.goto (openerSound_start A task)⟩
    · exact ⟨owned, h⟩
    · exact ⟨owned, (h.goto (openerSound_start A task)).withOther _ _ _⟩
  · -- the groups of the connections
    obtain ⟨nodes, hnodes⟩ := derefAll_of (fun p hp ↦ h.exists_of_vNodes hp)
    rw [hnodes]
    exact ⟨owned, h.goto trivial⟩
  · -- an address is chosen
    split_ifs
    · exact ⟨owned, h.finish t⟩
    · exact ⟨owned, h.goto trivial⟩
  · exact ⟨owned, h.finish t⟩
  · -- it is checked
    rename_i task addr check checks fLocal nNow hopener
    obtain ⟨fPasses, hpasses⟩ := h.passes addr fLocal nNow check
    rw [hpasses]
    cases fPasses with
    | true => exact ⟨owned, h.goto trivial⟩
    | false => exact ⟨owned, h.finish t⟩
  · exact h.connectNode _ _ _
  · -- a connection is made, or not
    split
    · exact ⟨owned, h.finish t⟩
    · exact ⟨_, h.create⟩
  · -- a reference is taken
    rename_i task p hopener
    have hsound := h.opener t
    rw [hopener] at hsound
    cases hnode : s.heap p with
    | none =>
      rw [modify, deref_of_none hnode]
      exact ⟨task, p, hopener⟩
    | some node =>
      rw [modify_of hnode]
      exact h.addRef hnode hsound task
  · -- the node is written to
    rename_i task fFound p w ws hopener
    exact h.write hopener
  · exact ⟨owned, h.finish t⟩
  · exact ⟨owned, h⟩

/-! ## Runs -/

/-- A step that may fail. -/
def Event.Unguarded (s : Peers) : Event → Prop
  | .opener t e => s.Unguarded t e
  | _ => False

/-- **A step** keeps the references owned. -/
theorem Inv.step (h : Inv owned s) (e : Event) : Safe (e.Unguarded s) (s.step A e) := by
  cases e with
  | socket e => exact h.socketStep e
  | message e => exact h.messageStep e
  | opener t e => exact h.openStep t e
  | visit =>
    obtain ⟨nodes, hnodes⟩ := derefAll_of (fun p hp ↦ h.exists_of_vNodes hp)
    rw [Peers.step, hnodes]
    exact ⟨owned, h⟩

/-- A run keeps the references owned, up to a step that is unguarded. -/
theorem Inv.run (events : List Event) : ∀ {owned : List (NodePtr × Option Opener)} {s : Peers},
    Inv owned s → Safe (∃ pre e post s', events = pre ++ e :: post ∧ s.run A pre = .ok s' ∧
      e.Unguarded s') (s.run A events) := by
  induction events with
  | nil => exact fun {owned _} h ↦ ⟨owned, h⟩
  | cons e events ih =>
    intro owned s h
    have hstep := h.step (A := A) e
    rw [Peers.run]
    cases hs : s.step A e with
    | error fault =>
      rw [hs] at hstep
      exact ⟨[], e, events, s, rfl, rfl, hstep⟩
    | ok s₁ =>
      rw [hs] at hstep
      obtain ⟨owned₁, h₁⟩ := hstep
      have hrest := ih h₁
      change Safe _ (s₁.run A events)
      cases hrun : s₁.run A events with
      | ok s' =>
        rw [hrun] at hrest
        exact hrest
      | error fault =>
        rw [hrun] at hrest
        obtain ⟨pre, e', post, s', rfl, hpre, hunguarded⟩ := hrest
        refine ⟨e :: pre, e', post, s', rfl, ?_, hunguarded⟩
        rw [Peers.run, hs]
        exact hpre

theorem inv_init (A : PeerArgs) : Inv [] (init A) where
  counted := ⟨List.forall_mem_nil _, fun p n hp ↦ by cases hp⟩
  fresh p node hp := by cases hp
  nodup := List.nodup_nil
  exists_iff p := by
    constructor
    · rintro ⟨node, hnode⟩
      cases hnode
    · intro hp
      cases hp
  listed := List.forall_mem_nil _
  nodup_toDelete := List.nodup_nil
  toDelete := List.forall_mem_nil _
  socketRest := List.forall_mem_nil _
  messageRest := List.forall_mem_nil _
  opener t := trivial

end Peers

namespace Sample

def peerArgs : PeerArgs := ⟨resolver, 125, 100, 86400⟩

/-- A connection is closed, disconnected and deleted. -/
def peerDeleted : List Peers.Event :=
  [.socket .snapshot, .socket (.serve true), .socket .release, .socket (.disconnect fun _ ↦ false),
    .socket (.check true), .socket .delete]

/-- A connection is deleted before it is marked as a one-shot. -/
def oneShotRace : List Peers.Event :=
  [.opener .openConnections (.start (.oneShot [97])), .opener .openConnections (.check false 0),
    .opener .openConnections (.check false 0), .opener .openConnections (.dial (some noService)),
    .opener .openConnections .write, .opener .openConnections .write,
    .opener .openConnections .write, .socket (.disconnect fun _ ↦ false), .socket .poll] ++
    peerDeleted ++ [.opener .openConnections .write]

/-- A connection that has come in is deleted after it has been found. -/
def foundRace : List Peers.Event :=
  [.opener .openAddedConnections (.start (.added noService)),
    .opener .openAddedConnections (.check false 0), .opener .openAddedConnections (.check false 0),
    .opener .openAddedConnections (.check false 0), .opener .openAddedConnections (.check false 0),
    .socket (.disconnect fun _ ↦ false), .socket .poll, .socket (.accept noService 0), .socket .push,
    .opener .openAddedConnections (.check false 0)] ++
    peerDeleted ++ [.opener .openAddedConnections .addRef]

example : (Peers.init peerArgs).run peerArgs oneShotRace = .error .useAfterFree := rfl

example : (Peers.init peerArgs).run peerArgs foundRace = .error .useAfterFree := rfl

end Sample

end Bws
