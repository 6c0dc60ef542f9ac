/-!
# Dispatch

A switch jumps by table or by lookup. A table has an entry for every value from the least case
to the greatest; a lookup has one for each case. The cheaper one is taken, with time counted
three times as much as space, and the table when both cost the same.
-/

namespace JMinusMinus

/-- How a switch finds its target. -/
inductive Strategy where
  | table | lookup
deriving DecidableEq

structure DispatchCosts where
  lo : Int
  hi : Int
  tableSpace : Int
  tableTime : Int
  lookupSpace : Int
  lookupTime : Int
deriving DecidableEq

namespace DispatchCosts

/-- The costs for a list of cases, if there are any. -/
def of? : List Int → Option DispatchCosts
  | [] => none
  | v :: vs =>
    let lo := vs.foldl min v
    let hi := vs.foldl max v
    let n : Int := (v :: vs).length
    some {
      lo, hi
      tableSpace := 4 + (hi - lo + 1)
      tableTime := 3
      lookupSpace := 3 + 2 * n
      lookupTime := n }

def strategy (c : DispatchCosts) : Strategy :=
  if c.tableSpace + 3 * c.tableTime ≤ c.lookupSpace + 3 * c.lookupTime then .table else .lookup

end DispatchCosts

/-- How a switch over these cases finds its target. A switch without cases does a lookup. -/
def Strategy.select (values : List Int) : Strategy :=
  ((DispatchCosts.of? values).map DispatchCosts.strategy).getD .lookup

end JMinusMinus
