import Mathlib.Data.List.Sort
import Mathlib.Data.String.Basic
import Mathlib.Tactic.SplitIfs

/-!
# The membership authority of the control plane

The control plane keeps the members of a cluster, the election term and the id of the leader. The
role of a member is stored with the member and the leader's id with the cluster, so the two could
disagree; `Led` says that they do not, and it is kept by every call (`Led.step`). It needs ids that
are not empty, because the empty id stands for "no leader". The HTTP surface refuses empty ids
itself.

The Go map from ids to nodes is the list of its values, with distinct ids. Nothing that is read back
depends on its order, since both the election and the snapshots sort.
-/

namespace Synapse.ControlPlane

open List

inductive NodeRole
  | leader
  | follower
  | candidate
deriving DecidableEq, Repr

structure Node where
  id : String
  addr : String
  role : NodeRole
  lastSeen : ℕ
deriving DecidableEq, Repr

structure Cluster where
  name : String
  nodes : List Node
  term : ℕ
  leader : String
  changed : ℕ
  ids_nodup : (nodes.map Node.id).Nodup

def newCluster (name : String) (now : ℕ) : Cluster where
  name := name
  nodes := []
  term := 1
  leader := ""
  changed := now
  ids_nodup := List.nodup_nil

namespace Cluster

variable (c : Cluster)

def ids : List String :=
  c.nodes.map Node.id

theorem ids_eq_nil_iff : c.ids = [] ↔ c.nodes = [] := map_eq_nil_iff

def modify (f : Node → Node) (hid : ∀ n, (f n).id = n.id) : Cluster :=
  { c with
    nodes := c.nodes.map f
    ids_nodup := by
      rw [List.map_map, show Node.id ∘ f = Node.id from funext hid]
      exact c.ids_nodup }

/-- Store the leader's id, and the role of every member. -/
def install (newLeader : String) (now : ℕ) : Cluster :=
  { c.modify (fun n ↦ { n with role := if n.id = newLeader then .leader else .follower })
      (fun _ ↦ rfl) with
    leader := newLeader
    changed := now }

/-- Elect the member with the lowest id. -/
def stepElectionLocked (now : ℕ) : String × Cluster :=
  match c.ids.insertionSort (· ≤ ·) with
  | [] => ("", { c with leader := "" })
  | newLeader :: _ => (newLeader, c.install newLeader now)

/-- Register a node; the first becomes the leader. Of a known id only the address and time are
updated. -/
def addNode (id addr : String) (now : ℕ) : (Node × Bool) × Cluster :=
  match hfind : c.nodes.find? (·.id = id) with
  | some n =>
    (({ n with addr := addr, lastSeen := now }, false),
      c.modify (fun m ↦ if m.id = id then { m with addr := addr, lastSeen := now } else m)
        (fun m ↦ by split_ifs <;> rfl))
  | none =>
    let n : Node := ⟨id, addr, if c.nodes = [] then .leader else .follower, now⟩
    ((n, true),
      { c with
        nodes := n :: c.nodes
        leader := if c.nodes = [] then id else c.leader
        changed := now
        ids_nodup := by
          refine List.nodup_cons.mpr ⟨fun hmem ↦ ?_, c.ids_nodup⟩
          obtain ⟨m, hm, heq⟩ := List.mem_map.mp hmem
          exact List.find?_eq_none.mp hfind m hm (decide_eq_true heq) })

/-- Drop a node; if the leader left, or there was none, elect again. -/
def removeNode (id : String) (now : ℕ) : Bool × Cluster :=
  if id ∈ c.ids then
    let c₁ : Cluster :=
      { c with
        nodes := c.nodes.filter (·.id ≠ id)
        leader := if c.leader = id then "" else c.leader
        changed := now
        ids_nodup := c.ids_nodup.sublist (List.filter_sublist.map _) }
    (true, if c₁.leader = "" then (c₁.stepElectionLocked now).2 else c₁)
  else (false, c)

/-- Start a new term and elect its leader; the term is a `uint64`. -/
def stepElection (now : ℕ) : String × Cluster :=
  if c.nodes = [] then ("", c)
  else { c with term := (c.term + 1) % 2 ^ 64 }.stepElectionLocked now

def sortedNodes : List Node :=
  c.nodes.insertionSort fun a b ↦ a.id ≤ b.id

end Cluster

structure Status where
  name : String
  term : ℕ
  leader : String
  nodes : List Node
  updatedAt : ℕ

def Cluster.status (c : Cluster) : Status where
  name := c.name
  term := c.term
  leader := c.leader
  nodes := c.sortedNodes
  updatedAt := c.changed

/-! ## What a call does -/

inductive ClusterOp
  | addNode (id addr : String) (now : ℕ)
  | removeNode (id : String) (now : ℕ)
  | stepElection (now : ℕ)
deriving DecidableEq, Repr

def Cluster.step (c : Cluster) : ClusterOp → Cluster
  | .addNode id addr now => (c.addNode id addr now).2
  | .removeNode id now => (c.removeNode id now).2
  | .stepElection now => (c.stepElection now).2

/-- The call registers a node under a non-empty id. -/
def ClusterOp.Named : ClusterOp → Prop
  | .addNode id _ _ => id ≠ ""
  | .removeNode id _ => id ≠ ""
  | .stepElection _ => True

instance : DecidablePred ClusterOp.Named := fun op ↦ by
  cases op <;> dsimp only [ClusterOp.Named] <;> infer_instance

variable {now : ℕ}

namespace Cluster

variable (c : Cluster)

@[simp]
theorem ids_modify (f : Node → Node) (hid : ∀ n, (f n).id = n.id) :
    (c.modify f hid).ids = c.ids := by
  rw [ids, ids, modify, map_map, show Node.id ∘ f = Node.id from funext hid]

@[simp]
theorem ids_install (newLeader : String) (now : ℕ) : (c.install newLeader now).ids = c.ids :=
  c.ids_modify (fun n ↦ { n with role := if n.id = newLeader then .leader else .follower })
    fun _ ↦ rfl

/-- **The election.** The lowest id among the members leads, and the roles say so; with no
members there is no leader. -/
theorem stepElectionLocked_eq (now : ℕ) :
    (c.ids = [] ∧ c.stepElectionLocked now = ("", { c with leader := "" })) ∨
      ∃ newLeader ∈ c.ids, (∀ id ∈ c.ids, newLeader ≤ id) ∧
        c.stepElectionLocked now = (newLeader, c.install newLeader now) := by
  have hmem : ∀ id, id ∈ c.ids.insertionSort (· ≤ ·) ↔ id ∈ c.ids := fun id ↦ mem_insertionSort _
  have hsrtd := pairwise_insertionSort (· ≤ ·) c.ids
  rw [stepElectionLocked]
  cases heq : c.ids.insertionSort (· ≤ ·) with
  | nil =>
    rw [heq] at hmem
    refine .inl ⟨eq_nil_iff_forall_not_mem.mpr fun id hid ↦ ?_, rfl⟩
    exact not_mem_nil ((hmem id).mpr hid)
  | cons newLeader rest =>
    rw [heq] at hmem hsrtd
    refine .inr ⟨newLeader, (hmem _).mp mem_cons_self, fun id hid ↦ ?_, rfl⟩
    rcases mem_cons.mp ((hmem id).mpr hid) with rfl | hrest
    · exact le_rfl
    · exact rel_of_pairwise_cons hsrtd hrest

variable {c}

variable {id : String}

theorem addNode_of_mem (h : id ∈ c.ids) (addr : String) (now : ℕ) : (c.addNode id addr now).2 =
      c.modify (fun m ↦ if m.id = id then { m with addr := addr, lastSeen := now } else m)
        (fun m ↦ by split_ifs <;> rfl) := by
  rw [addNode]
  split
  · rfl
  · rename_i hfind
    obtain ⟨m, hm, heq⟩ := mem_map.mp h
    exact absurd (decide_eq_true heq) (List.find?_eq_none.mp hfind m hm)

theorem addNode_of_not_mem (h : id ∉ c.ids) (addr : String) (now : ℕ) : (c.addNode id addr now).2 =
      { c with
        nodes := ⟨id, addr, if c.nodes = [] then .leader else .follower, now⟩ :: c.nodes
        leader := if c.nodes = [] then id else c.leader
        changed := now
        ids_nodup := nodup_cons.mpr ⟨h, c.ids_nodup⟩ } := by
  rw [addNode]
  split
  · rename_i n hfind
    have hid := List.find?_some hfind
    exact absurd (mem_map.mpr ⟨n, mem_of_find?_eq_some hfind, of_decide_eq_true hid⟩) h
  · rfl

theorem removeNode_of_not_mem (h : id ∉ c.ids) (now : ℕ) : c.removeNode id now = (false, c) :=
  if_neg h

/-- The cluster without a node, before the election that may follow. -/
def without (c : Cluster) (id : String) (now : ℕ) : Cluster :=
  { c with
    nodes := c.nodes.filter (·.id ≠ id)
    leader := if c.leader = id then "" else c.leader
    changed := now
    ids_nodup := c.ids_nodup.sublist (List.filter_sublist.map _) }

theorem removeNode_of_mem (h : id ∈ c.ids) (now : ℕ) :
    c.removeNode id now = (true, if (c.without id now).leader = "" then
      ((c.without id now).stepElectionLocked now).2 else c.without id now) :=
  if_pos h

theorem mem_ids_without {i : String} : i ∈ (c.without id now).ids ↔ i ∈ c.ids ∧ i ≠ id := by
  simp only [ids, without, mem_map, mem_filter, decide_eq_true_eq]
  constructor
  · rintro ⟨n, ⟨hn, hne⟩, rfl⟩
    exact ⟨⟨n, hn, rfl⟩, hne⟩
  · rintro ⟨⟨n, hn, rfl⟩, hne⟩
    exact ⟨n, ⟨hn, hne⟩, rfl⟩

end Cluster

/-! ## Leadership -/

/-- The roles and the leader's id agree: the member the id names is the one leader, and without
members there is no leader. -/
structure Led (c : Cluster) : Prop where
  role_eq : ∀ n ∈ c.nodes, n.role = if n.id = c.leader then .leader else .follower
  leader_mem : c.nodes ≠ [] → c.leader ∈ c.ids
  leader_eq : c.nodes = [] → c.leader = ""
  empty_not_mem : "" ∉ c.ids

namespace Led

variable {c : Cluster}

theorem newCluster (name : String) (now : ℕ) : Led (newCluster name now) where
  role_eq := by simp [ControlPlane.newCluster]
  leader_mem h := absurd rfl h
  leader_eq _ := rfl
  empty_not_mem := by simp [ControlPlane.newCluster, Cluster.ids]

/-- An election makes the cluster led, whatever the roles were before. -/
theorem stepElectionLocked (h : "" ∉ c.ids) (now : ℕ) : Led (c.stepElectionLocked now).2 := by
  rcases c.stepElectionLocked_eq now with ⟨hnil, heq⟩ | ⟨newLeader, hmem, -, heq⟩
  · have hnodes : c.nodes = [] := c.ids_eq_nil_iff.mp hnil
    rw [heq]
    exact ⟨by simp [hnodes], fun hne ↦ absurd hnodes hne, fun _ ↦ rfl, h⟩
  rw [heq]
  refine ⟨fun n hn ↦ ?_, fun _ ↦ ?_, fun hnil ↦ ?_, ?_⟩
  · obtain ⟨m, -, rfl⟩ := mem_map.mp hn
    rfl
  · rwa [Cluster.ids_install]
  · rw [c.ids_eq_nil_iff.mpr (map_eq_nil_iff.mp hnil)] at hmem
    exact nomatch hmem
  · rwa [Cluster.ids_install]

section

variable (h : Led c)

include h

theorem addNode {id : String} (hid : id ≠ "") (addr : String) (now : ℕ) :
    Led (c.addNode id addr now).2 := by
  by_cases hmem : id ∈ c.ids
  · rw [Cluster.addNode_of_mem hmem]
    refine ⟨fun n hn ↦ ?_, fun hne ↦ ?_, fun hnil ↦ ?_, ?_⟩
    · obtain ⟨m, hm, rfl⟩ := mem_map.mp hn
      have hrole := h.role_eq m hm
      by_cases heq : m.id = id
      · rwa [if_pos heq]
      · rwa [if_neg heq]
    · rw [Cluster.ids_modify]
      exact h.leader_mem fun hnil ↦ hne (map_eq_nil_iff.mpr hnil)
    · exact h.leader_eq (map_eq_nil_iff.mp hnil)
    · rw [Cluster.ids_modify]
      exact h.empty_not_mem
  · rw [Cluster.addNode_of_not_mem hmem]
    refine ⟨fun n hn ↦ ?_, fun _ ↦ ?_, fun hnil ↦ absurd hnil (cons_ne_nil _ _), ?_⟩
    · by_cases hnil : c.nodes = []
      · -- the first node leads
        dsimp only at hn ⊢
        rw [hnil, mem_singleton] at hn
        simp [hn, hnil]
      · have hne : id ≠ c.leader := fun heq ↦ hmem (heq ▸ h.leader_mem hnil)
        rcases mem_cons.mp hn with rfl | hold
        · simp [hnil, hne]
        · simpa [hnil] using h.role_eq n hold
    · by_cases hnil : c.nodes = []
      · simp [Cluster.ids, hnil]
      · simpa [Cluster.ids, hnil] using Or.inr (mem_map.mp (h.leader_mem hnil))
    · exact not_mem_cons_of_ne_of_not_mem hid.symm h.empty_not_mem

theorem removeNode (id : String) (now : ℕ) : Led (c.removeNode id now).2 := by
  by_cases hmem : id ∈ c.ids
  · rw [Cluster.removeNode_of_mem hmem]
    have hemp : "" ∉ (c.without id now).ids :=
      fun hin ↦ h.empty_not_mem (Cluster.mem_ids_without.mp hin).1
    by_cases hlead : c.leader = id
    · rw [if_pos (by simp [Cluster.without, hlead])]
      exact stepElectionLocked hemp now
    -- a follower left: the leader is still a member
    have hin : c.leader ∈ c.ids := h.leader_mem fun hnil ↦ by simp [Cluster.ids, hnil] at hmem
    have hkeep : (c.without id now).leader = c.leader := if_neg hlead
    have hin' : c.leader ∈ (c.without id now).ids := Cluster.mem_ids_without.mpr ⟨hin, hlead⟩
    rw [if_neg (by rw [hkeep]; exact fun heq ↦ h.empty_not_mem (heq ▸ hin))]
    refine ⟨fun n hn ↦ ?_, fun _ ↦ hkeep.symm ▸ hin', fun hnil ↦ ?_, hemp⟩
    · rw [hkeep]
      exact h.role_eq n (mem_of_mem_filter hn)
    · rw [(Cluster.ids_eq_nil_iff _).mpr hnil] at hin'
      exact absurd hin' not_mem_nil
  · rwa [Cluster.removeNode_of_not_mem hmem]

theorem stepElection (now : ℕ) : Led (c.stepElection now).2 := by
  rw [Cluster.stepElection]
  split_ifs with hnil
  · exact h
  · exact stepElectionLocked (c := { c with term := (c.term + 1) % 2 ^ 64 }) h.empty_not_mem now

/-- **Leadership is kept by every call.** -/
theorem step {op : ClusterOp} (hop : op.Named) : Led (c.step op) := by
  cases op with
  | addNode id addr now => exact h.addNode hop addr now
  | removeNode id now => exact h.removeNode id now
  | stepElection now => exact h.stepElection now

theorem foldl_step {ops : List ClusterOp} (hops : ∀ op ∈ ops, op.Named) :
    Led (ops.foldl Cluster.step c) := by
  induction ops generalizing c with
  | nil => exact h
  | cons op ops ih =>
    exact ih (h.step (hops op mem_cons_self)) fun o ho ↦ hops o (mem_cons_of_mem op ho)

theorem exists_leader (hne : c.nodes ≠ []) : ∃ n ∈ c.nodes, n.id = c.leader ∧ n.role = .leader ∧
      ∀ m ∈ c.nodes, m ≠ n → m.role = .follower := by
  obtain ⟨n, hn, hid⟩ := mem_map.mp (h.leader_mem hne)
  refine ⟨n, hn, hid, by rw [h.role_eq n hn, if_pos hid], fun m hm hmn ↦ ?_⟩
  have hne' : m.id ≠ c.leader := fun heq ↦
    hmn (inj_on_of_nodup_map c.ids_nodup hm hn (heq.trans hid.symm))
  rw [h.role_eq m hm, if_neg hne']

end

end Led

def Cluster.run (name : String) (now : ℕ) (ops : List ClusterOp) : Cluster :=
  ops.foldl Cluster.step (newCluster name now)

/-- **The leadership invariant.** After any calls with non-empty ids, exactly one member is a
leader, the one `leader` names; or there are no members and no leader. -/
theorem leader_unique (name : String) (now : ℕ) (ops : List ClusterOp)
    (hops : ∀ op ∈ ops, op.Named) :
    ((Cluster.run name now ops).nodes ≠ [] → ∃ n ∈ (Cluster.run name now ops).nodes,
        n.id = (Cluster.run name now ops).leader ∧ n.role = .leader ∧
        ∀ m ∈ (Cluster.run name now ops).nodes, m ≠ n → m.role = .follower) ∧
    ((Cluster.run name now ops).nodes = [] → (Cluster.run name now ops).leader = "") := by
  have hled := (Led.newCluster name now).foldl_step hops
  exact ⟨hled.exists_leader, hled.leader_eq⟩

/-- A run of the invariant: the leader of three members leaves, and the next one leads. -/
theorem leader_unique_after_removal :
    let c := Cluster.run "c" 0
      [.addNode "n1" "a1" 1, .addNode "n2" "a2" 2, .addNode "n3" "a3" 3, .removeNode "n1" 4]
    ∃ n ∈ c.nodes, n.id = c.leader ∧ n.role = .leader ∧
      ∀ m ∈ c.nodes, m ≠ n → m.role = .follower :=
  (leader_unique "c" 0 _ (by decide)).1 (by decide +kernel)

/-! ## The term

Only an election that is asked for moves the term. The elections that follow the loss of a leader
do not. -/

namespace Cluster

variable (c : Cluster)

@[simp]
theorem term_stepElectionLocked (now : ℕ) : (c.stepElectionLocked now).2.term = c.term := by
  rcases c.stepElectionLocked_eq now with ⟨-, heq⟩ | ⟨newLeader, -, -, heq⟩
  · rw [heq]
  · rw [heq]
    rfl

@[simp]
theorem term_addNode (id addr : String) (now : ℕ) : (c.addNode id addr now).2.term = c.term := by
  by_cases hmem : id ∈ c.ids
  · rw [addNode_of_mem hmem]
    rfl
  · rw [addNode_of_not_mem hmem]

@[simp]
theorem term_removeNode (id : String) (now : ℕ) : (c.removeNode id now).2.term = c.term := by
  by_cases hmem : id ∈ c.ids
  · rw [removeNode_of_mem hmem]
    split_ifs
    · exact term_stepElectionLocked _ now
    · rfl
  · rw [removeNode_of_not_mem hmem]

theorem term_stepElection (now : ℕ) :
    (c.stepElection now).2.term = if c.nodes = [] then c.term else (c.term + 1) % 2 ^ 64 := by
  rw [stepElection]
  split_ifs
  · rfl
  · exact term_stepElectionLocked _ now

end Cluster

/-! ## The HTTP surface -/

inductive Method
  | get
  | post
  | delete
  | other
deriving DecidableEq, Repr

/-- A request: the body is the id and address of the decoded node, if it decodes, and `idParam`
is the query parameter, empty if it is absent. -/
structure Request where
  method : Method
  path : String
  body : Option (String × String)
  idParam : String

inductive Payload
  | status (status : Status)
  | nodes (nodes : List Node)
  | node (node : Node)
  | removed (removed : Bool)
  | error (message : String)

structure Response where
  code : ℕ
  payload : Payload

namespace Cluster

/-- Serve a request. Membership is changed under `/nodes` only, and no route starts an election. -/
def handler (c : Cluster) (r : Request) (now : ℕ) : Response × Cluster :=
  if r.path = "/cluster" then (⟨200, .status c.status⟩, c)
  else if r.path = "/nodes" then
    match r.method with
    | .get => (⟨200, .nodes c.sortedNodes⟩, c)
    | .post =>
      match r.body with
      | none => (⟨400, .error "invalid node body"⟩, c)
      | some (id, addr) =>
        if id = "" then (⟨400, .error "invalid node body"⟩, c)
        else (⟨201, .node (c.addNode id addr now).1.1⟩, (c.addNode id addr now).2)
    | .delete =>
      if r.idParam = "" then (⟨400, .error "missing id"⟩, c)
      else (⟨200, .removed (c.removeNode r.idParam now).1⟩, (c.removeNode r.idParam now).2)
    | .other => (⟨405, .error "method not allowed"⟩, c)
  else (⟨404, .error "404 page not found"⟩, c)

/-- **What a request does**: nothing, or one call with a non-empty id that succeeds. -/
theorem handler_cases (c : Cluster) (r : Request) (now : ℕ) :
    (c.handler r now).2 = c ∨ (c.handler r now).1.code < 400 ∧ ∃ op : ClusterOp, op.Named ∧
      (c.handler r now).2 = c.step op ∧ (c.step op).term = c.term := by
  rw [handler]
  by_cases hcluster : r.path = "/cluster"
  · rw [if_pos hcluster]
    exact .inl rfl
  rw [if_neg hcluster]
  by_cases hnodes : r.path = "/nodes"
  · rw [if_pos hnodes]
    cases r.method with
    | get => exact .inl rfl
    | other => exact .inl rfl
    | post =>
      cases r.body with
      | none => exact .inl rfl
      | some node =>
        by_cases hid : node.1 = ""
        · simp only [if_pos hid, true_or]
        · simp only [if_neg hid]
          exact .inr ⟨by decide, .addNode node.1 node.2 now, hid, rfl, c.term_addNode _ _ _⟩
    | delete =>
      by_cases hid : r.idParam = ""
      · simp only [if_pos hid, true_or]
      · simp only [if_neg hid]
        exact .inr ⟨by decide, .removeNode r.idParam now, hid, rfl, c.term_removeNode _ _⟩
  · rw [if_neg hnodes]
    exact .inl rfl

theorem handler_of_error {c : Cluster} {r : Request} (h : 400 ≤ (c.handler r now).1.code) :
    (c.handler r now).2 = c := by
  rcases c.handler_cases r now with hsame | ⟨hcode, -⟩
  · exact hsame
  · exact absurd h (Nat.not_le.mpr hcode)

end Cluster

theorem Led.handler {c : Cluster} (h : Led c) (r : Request) (now : ℕ) :
    Led (c.handler r now).2 ∧ (c.handler r now).2.term = c.term := by
  rcases c.handler_cases r now with hsame | ⟨-, op, hop, heq, hterm⟩
  · rw [hsame]
    exact ⟨h, rfl⟩
  · rw [heq]
    exact ⟨h.step hop, hterm⟩

/-- After any requests the cluster is led, and it is still in its first term. -/
theorem led_requests (name : String) (now : ℕ) (requests : List (Request × ℕ)) :
    Led (requests.foldl (fun c r ↦ (c.handler r.1 r.2).2) (newCluster name now)) ∧
      (requests.foldl (fun c r ↦ (c.handler r.1 r.2).2) (newCluster name now)).term = 1 := by
  have hkeep : ∀ c : Cluster, Led c ∧ c.term = 1 →
      Led (requests.foldl (fun c r ↦ (c.handler r.1 r.2).2) c) ∧
        (requests.foldl (fun c r ↦ (c.handler r.1 r.2).2) c).term = 1 := by
    induction requests with
    | nil => exact fun c hc ↦ hc
    | cons r requests ih =>
      exact fun c hc ↦ ih _ ((hc.1.handler r.1 r.2).imp_right (·.trans hc.2))
  exact hkeep _ ⟨.newCluster name now, rfl⟩

end Synapse.ControlPlane
