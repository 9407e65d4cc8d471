import DoubleTake.Lib.CircularList

/-! The intrusive lists of `list.hh`. A memory is the two pointers of every node; `nodeInit`, `__insert_between`, `__list_link`,
    `listInsertTail` and `listRemoveNode` are `nodeInit`, `insertBetween`, `link`, `insertTail` and `removeNode` of the library. -/

namespace DoubleTake
namespace ListOps

open CircularList

variable {α : Type} [DecidableEq α]

def listInit (L : Links α) (node : α) : Links α := L.nodeInit node

def isListEmpty (L : Links α) (head : α) : Bool := L.next head = head

def nextEntry (L : Links α) (cur : α) : α := L.next cur

def prevEntry (L : Links α) (cur : α) : α := L.prev cur

/-- `none`: the null pointer. -/
def tailList (L : Links α) (head : α) : Option α := if ¬ isListEmpty L head then some (L.prev head) else none

def listInsertNode (L : Links α) (node prev : α) : Links α := L.insertBetween node prev (L.next prev)

def listInsertTail (L : Links α) (node head : α) : Links α := L.insertTail node head

def listInsertHead (L : Links α) (node head : α) : Links α := L.insertBetween node head (L.next head)

def listInsertList (L : Links α) (list whereNode : α) : Links α :=
  let L := L.link whereNode list
  L.link (L.prev list) (L.next whereNode)

def listInsertListTail (L : Links α) (list whereNode : α) : Links α :=
  let L := L.link (L.prev whereNode) (L.next list)
  L.link (L.prev list) whereNode

def listRemoveNode (L : Links α) (node : α) : Links α := L.removeNode node

def isListTail (L : Links α) (node head : α) : Bool := L.next node = head

/-- `none`: the null pointer. -/
def listRetrieveItem (L : Links α) (list : α) : Option α × Links α :=
  if ¬ isListEmpty L list then (some (L.next list), listRemoveNode L (L.next list)) else (none, L)

def listRetrieveAllItems (L : Links α) (dest src : α) : Links α :=
  let first := L.next src
  let last := L.prev src
  let L : Links α := { L with prev := Function.update L.prev first dest }
  let L : Links α := { L with next := Function.update L.next last dest }
  let L : Links α := { L with next := Function.update L.next dest first }
  let L : Links α := { L with prev := Function.update L.prev dest last }
  listInit L src

/-! ### Sequences of operations -/

inductive Op (α : Type) where
  | listInit (node : α)
  | listInsertHead (node head : α)
  | listInsertTail (node head : α)
  | listInsertNode (node prev : α)
  | listRemoveNode (node : α)
  | listRetrieveItem (list : α)
  | isListEmpty (head : α)
  | isListTail (node head : α)
  | tailList (head : α)
  deriving DecidableEq, Repr

inductive Answer (α : Type) where
  | void
  | bool (b : Bool)
  | item (node : Option α)
  deriving DecidableEq, Repr

def exec (L : Links α) : Op α → Answer α × Links α
  | .listInit node => (.void, listInit L node)
  | .listInsertHead node head => (.void, listInsertHead L node head)
  | .listInsertTail node head => (.void, listInsertTail L node head)
  | .listInsertNode node prev => (.void, listInsertNode L node prev)
  | .listRemoveNode node => (.void, listRemoveNode L node)
  | .listRetrieveItem list => (.item (listRetrieveItem L list).1, (listRetrieveItem L list).2)
  | .isListEmpty head => (.bool (isListEmpty L head), L)
  | .isListTail node head => (.bool (isListTail L node head), L)
  | .tailList head => (.item (tailList L head), L)

def execAll (L : Links α) : List (Op α) → List (Answer α) × Links α
  | [] => ([], L)
  | op :: ops =>
    let (answer, L) := exec L op
    let (answers, L) := execAll L ops
    (answer :: answers, L)

end ListOps
end DoubleTake
