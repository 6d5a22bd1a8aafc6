import LatteWork.Lib.Slots
import LatteWork.Wire.Json
import LatteWork.Workbench.TaskInfo

/-!
# Saved orders

Projects and tasks are listed in an order that the user has chosen, which is saved as the keys of
the items. Some of them may not be loaded, and some that are loaded may be new.
-/

namespace LatteWork

namespace ListOrder

structure HostedItem where
  hostId : String
  id : String
  deriving DecidableEq, Repr

def itemOrderKey (item : HostedItem) : String := (Json.arr [.str item.hostId, .str item.id]).render

variable {T : Type} (hosted : T → HostedItem)

/-- One step of the loop of `orderItems`: its `result`, and its map `remaining`. -/
def takeItem (s : List T × List (String × T)) (key : String) : List T × List (String × T) :=
  match s.2.lookup key with
  | some item => (s.1 ++ [item], Assoc.drop key s.2)
  | none => s

def orderItems (items : List T) (order : List String) : List T :=
  let remaining := items.foldl (fun map p => TaskInfo.set map (itemOrderKey (hosted p)) p) []
  let taken := order.foldl takeItem ([], remaining)
  taken.1 ++ taken.2.map (·.2)

def moveItemKeys (keys : List String) (source target : String) (after : Bool) : List String :=
  if source = target ∨ source ∉ keys ∨ target ∉ keys then keys
  else
    let next := keys.filter (· ≠ source)
    let next := next.insertIdx (next.idxOf target + if after then 1 else 0) source
    if next.zipIdx.all fun e => keys[e.2]? = some e.1 then keys else next

/-- The code asks whether `moveItemKeys` gives the list that it was given, which is so when its content
is the same. An `undefined` among the keys is modelled as nothing at all. -/
def moveItemOrder (previous : List String) (items : List T) (source target : String) (after : Bool) :
    Option (List String) :=
  let keys := (orderItems hosted items previous).map fun item => itemOrderKey (hosted item)
  let next := moveItemKeys keys source target after
  if next = keys then some previous
  else (Slots.refill (fun key => key ∈ keys) previous next).map fun filled => filled.1 ++ filled.2

end ListOrder

end LatteWork
