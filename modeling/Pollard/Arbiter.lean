import Pollard.Value

/-!
# Reserve and settle contracts

The records exchanged between a run and an arbiter.  A `Decimal` is its exact
value, an instant is a number of seconds.
-/

namespace Pollard

open Lib

abbrev Decimal := ℚ

abbrev Instant := ℚ

structure BudgetReservation where
  scopeId : String
  limits : Dict String Decimal
  baseline : Dict String Decimal
  estimates : Dict String Decimal
deriving DecidableEq

structure WindowReservation where
  ledgerKey : String
  meter : String
  limit : Decimal
  amount : Decimal
  windowSeconds : ℚ
deriving DecidableEq

structure ReservationCheck where
  ok : Bool
  reason : String := "budget"
  meter : Option String := none
  requested : Decimal := 0
  remaining : Decimal := 0
  windowSeconds : Option ℚ := none
deriving DecidableEq

end Pollard
