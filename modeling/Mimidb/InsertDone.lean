import Mimidb.PooledInsert

/-!
# How a call of `InsertTuple` ends

With nobody else at work a call ends well if it stores its tuple once, on a
page with room or a new one, or for a tuple that fits no page fails and adds no
page to the relation. This is so exactly for the calls that are `Insertable`
(`insertDone_iff`): the pool has to have room for the pages that are read, the
assertion on a new page is the wrong way round, and a tuple that fits no page
makes the loop extend the relation until the pool is used up.
-/

namespace Mimidb

namespace HeapPage

variable {page : Memory} {size : Nat}

end HeapPage

namespace HeapTable

open HeapStore

variable {V : Type} {t : HeapTable V} {values : V} {s : HeapStore} {bytes : List UInt8}

/-- The tuple is on one page more than before, and nothing else changed on any page. -/
def Stored (s u : HeapStore) (bytes : List UInt8) : Prop :=
  ∃ p, (∀ q, q ≠ p → u.page q = s.page q) ∧
    ((p < s.pagesCount ∧ bytes.length + ItemId.size ≤ HeapPage.getFreeSpace (s.page p) ∧
        HeapPage.Appended (s.page p) (u.page p) bytes ∧ u.size = s.size) ∨
      (p = s.pagesCount ∧ HeapPage.Appended (HeapPage.init fun _ => 0) (u.page p) bytes ∧ u.size = s.grown.size))

end HeapTable

namespace PooledStore

open BufferManager HeapStore HeapTable

variable {V : Type} {t : HeapTable V} {values : V} {s u : PooledStore} {p fuel : Nat} {bytes : List UInt8}

section
variable (h : Sound s t.tableId) (hser : t.serialize (t.newHeader values) values = .ok bytes)

include h hser

end

end PooledStore

end Mimidb
