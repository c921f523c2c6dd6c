import ClusterMetadata.SortedMap

/-!
The ids of a node's messages, and the requests that still wait for a response. Ids count up from 1;
a response can be claimed once.
-/

namespace ClusterMetadata

structure Messenger (κ : Type) where
  nextId : UInt64
  waiting : SortedMap String κ

namespace Messenger

variable {κ : Type}

def new : Messenger κ := ⟨1, ∅⟩

def fresh (m : Messenger κ) : String × Messenger κ :=
  (toString m.nextId.toNat, { m with nextId := m.nextId + 1 })

def await (m : Messenger κ) (id : String) (callback : κ) : Messenger κ :=
  { m with waiting := m.waiting.insert id callback }

-- What waits under the id, which then waits no more.
def claim (m : Messenger κ) (id : String) : Option κ × Messenger κ :=
  (m.waiting[id]?, { m with waiting := m.waiting.erase id })

def pending (m : Messenger κ) : Nat := m.waiting.size

end Messenger
end ClusterMetadata
