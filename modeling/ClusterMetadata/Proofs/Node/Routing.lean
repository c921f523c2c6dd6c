import ClusterMetadata.Proofs.Node.Sending

/-!
What becomes of a batch of mutations. The write path gets the mutations of the ordinary keyspaces in
one call, or no call if there are none. If it does not fail, the mutations of the metadata keyspace
are pushed one after the other, up to the first that does not encode (`executeBatch_routes`).
-/

namespace ClusterMetadata

-- What goes to the targets of a push: the mutation alone, in one message for each of them.
structure Network.Pushes (net : Network) (sender : Address) (mutation : Mutation)
    (sent : List (Address × Message)) : Prop where
  delivers : net.Delivers sender mutation.key (sent.map Prod.fst)
  brings   : ∃ payload, Wire.writeBatch Protocol.current [mutation] = .ok payload ∧
    ∀ message ∈ sent.map Prod.snd, message = .plain .definitionsUpdate payload

namespace Node

variable {n : Node} {net : Network} {batch mutations : List Mutation} {m : Mutation}
  {answer : Except Failure Unit}

-- The messages have gone out, each under the id that comes next.
def told (n : Node) (sent : List (Address × Message)) : Node :=
  { n with
    messenger := n.messenger.skip sent.length
    outbox := n.outbox ++ sent.mapIdx fun k s => .send s.1 (n.messenger.idAfter k) s.2 }

theorem told_nil : n.told [] = n := by simp [told, Messenger.skip_zero]

theorem told_told {sent later : List (Address × Message)} :
    (n.told sent).told later = n.told (sent ++ later) := by
  simp only [told, Messenger.skip_skip, Messenger.idAfter_skip, List.append_assoc,
    List.length_append, List.mapIdx_append, Nat.add_comm]

theorem run_push_of_ok {payload : Bytes}
    (h : Wire.writeBatch Protocol.current [m] = .ok payload) :
    n.run (push net m) = (.ok (net.pushTargets n.address m.key),
      n.told ((net.pushTargets n.address m.key).map (·, .plain .definitionsUpdate payload))) := by
  refine run_push_eq_ok_iff.mpr ⟨rfl, payload, h, ?_⟩
  simp only [told, copies, List.length_map, List.mapIdx_eq_zipIdx_map, List.zipIdx_map,
    List.map_map, Function.comp_def, Prod.map, id]

theorem pushes_pushTargets {payload : Bytes} (net : Network) (sender : Address)
    (h : Wire.writeBatch Protocol.current [m] = .ok payload) : net.Pushes sender m
      ((net.pushTargets sender m.key).map (·, .plain .definitionsUpdate payload)) where
  delivers := by simpa [Function.comp_def] using net.delivers_pushTargets sender m.key
  brings   := ⟨payload, h, by simp⟩

theorem run_discard {α : Type} {x : NodeM α} {result : Except Failure α} {n' : Node}
    (h : n.run x = (result, n')) : n.run (discard x) = (result.map fun _ => (), n') := by
  change n.run ((fun _ => PUnit.unit) <$> x) = _
  rw [run_map, h]
  cases result <;> rfl

-- How far the pushes of some mutations came.
inductive Stopped (mutations pushed : List Mutation) : Except Failure Unit → Prop where
  | atEnd : pushed = mutations → Stopped mutations pushed (.ok ())
  | before (m : Mutation) (rest : List Mutation) (e : WireError) :
    mutations = pushed ++ m :: rest → Wire.writeBatch Protocol.current [m] = .error e →
    Stopped mutations pushed (.error (.wire e))

theorem Stopped.cons {pushed : List Mutation} {result : Except Failure Unit}
    (h : Stopped mutations pushed result) (m : Mutation) :
    Stopped (m :: mutations) (m :: pushed) result := by
  cases h
  case atEnd h => exact .atEnd (congrArg (m :: ·) h)
  case before m' rest e h he => exact .before m' rest e (congrArg (m :: ·) h) he

-- The node that pushes the next mutation sits at the same address and has said more.
theorem run_pushes (n : Node) (net : Network) (mutations : List Mutation) :
    ∃ pushed groups, List.Forall₂ (net.Pushes n.address) pushed groups ∧
      (n.run (mutations.forM fun m => discard (push net m))).2 = n.told groups.flatten ∧
      Stopped mutations pushed (n.run (mutations.forM fun m => discard (push net m))).1 := by
  induction mutations generalizing n
  case nil => exact ⟨[], [], .nil, told_nil.symm, .atEnd rfl⟩
  case cons m mutations hi =>
    rw [List.forM, run_bind]
    cases hw : Wire.writeBatch Protocol.current [m]
    case error e =>
      rw [run_discard (run_push_of_error hw)]
      exact ⟨[], [], .nil, told_nil.symm, .before m mutations e rfl hw⟩
    case ok payload =>
      rw [run_discard (run_push_of_ok hw)]
      obtain ⟨pushed, groups, hp, ht, hs⟩ := hi (n.told _)
      refine ⟨m :: pushed, _ :: groups, .cons (pushes_pushTargets net n.address hw) hp, ?_,
        hs.cons m⟩
      rw [List.flatten_cons, ← told_told]
      exact ht

def ordinary (batch : List Mutation) : List Mutation :=
  batch.filter (·.keyspace ≠ Catalog.metadata)

def metadata (batch : List Mutation) : List Mutation :=
  batch.filter (·.keyspace = Catalog.metadata)

-- Nobody is called for nothing.
def calls (batch : List Mutation) : List (List Mutation) :=
  if ordinary batch = [] then [] else [ordinary batch]

theorem route_eq : route batch = (metadata batch, ordinary batch) := by
  simp only [route, List.partition_eq_filter_filter, metadata, ordinary, Function.comp_def,
    decide_not]

theorem flatten_calls : (calls batch).flatten = ordinary batch := by
  rw [calls]
  split
  case isTrue h  => rw [h]; rfl
  case isFalse h => simp

theorem run_executeBatch_of_refused {e : Failure} (ho : ordinary batch ≠ []) :
    n.run (executeBatch net batch (.error e)) =
      (.error e, { n with written := n.written ++ calls batch }) := by
  rw [executeBatch, route_eq, calls, if_neg ho]
  dsimp only
  rw [if_pos (by simpa using ho)]
  rfl

theorem run_executeBatch_of_taken (h : ordinary batch = [] ∨ answer = .ok ()) :
    n.run (executeBatch net batch answer) =
      { n with written := n.written ++ calls batch }.run
        ((metadata batch).forM fun m => discard (push net m)) := by
  rw [executeBatch, route_eq, calls]
  dsimp only
  by_cases ho : ordinary batch = []
  case pos => simp [ho]
  case neg =>
    obtain rfl := h.resolve_left ho
    rw [if_pos (by simpa using ho), if_neg ho]
    rfl

theorem perm_ordinary_metadata : (ordinary batch ++ metadata batch).Perm batch := by
  have hm : metadata batch = batch.filter fun m => !decide (m.keyspace ≠ Catalog.metadata) := by
    simp [metadata]
  rw [hm]
  exact List.filter_append_perm _ batch

theorem not_mem_metadata_of_mem_ordinary (h : m ∈ ordinary batch) : m ∉ metadata batch := by
  have ho : m.keyspace ≠ Catalog.metadata := by simpa using (List.mem_filter.mp h).right
  exact fun hm => ho (by simpa using (List.mem_filter.mp hm).right)

-- What is in `calls` went to the write path, and what is in `pushed` to the targets of its own, one
-- group of messages for each mutation.
theorem executeBatch_routes (n : Node) (net : Network) (batch : List Mutation)
    (answer : Except Failure Unit) :
    let handed := n.run (executeBatch net batch answer)
    ∃ pushed groups,
      List.Forall₂ (net.Pushes n.address) pushed groups ∧
      handed.2 = { n with written := n.written ++ calls batch }.told groups.flatten ∧
      (∀ e, ordinary batch ≠ [] → answer = .error e → handed.1 = .error e ∧ pushed = []) ∧
      (ordinary batch = [] ∨ answer = .ok () → Stopped (metadata batch) pushed handed.1) ∧
      (handed.1 = .ok () → ((calls batch).flatten ++ pushed).Perm batch ∧
        ∀ m ∈ (calls batch).flatten, m ∉ pushed) := by
  intro handed
  by_cases h : ordinary batch = [] ∨ answer = .ok ()
  case pos =>
    have hr : handed = _ := run_executeBatch_of_taken h
    obtain ⟨pushed, groups, hp, ht, hs⟩ :=
      run_pushes { n with written := n.written ++ calls batch } net (metadata batch)
    rw [← hr] at ht hs
    refine ⟨pushed, groups, hp, ht, fun e ho ha => ?_, fun _ => hs, fun hk => ?_⟩
    case refine_1 => cases (h.resolve_left ho).symm.trans ha
    case refine_2 =>
      rw [hk] at hs
      obtain ⟨rfl⟩ := hs
      rw [flatten_calls]
      exact ⟨perm_ordinary_metadata, fun m => not_mem_metadata_of_mem_ordinary⟩
  case neg =>
    obtain ⟨ho, ha⟩ := not_or.mp h
    cases answer
    case ok _ => exact absurd rfl ha
    case error e =>
      have hr : handed = _ := run_executeBatch_of_refused ho
      rw [hr]
      refine ⟨[], [], .nil, told_nil.symm, fun e' _ he => ⟨he ▸ rfl, rfl⟩, fun h' => ?_,
        fun hk => ?_⟩
      case refine_1 => exact absurd h' h
      case refine_2 => cases hk

end Node
end ClusterMetadata
