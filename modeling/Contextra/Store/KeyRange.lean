import Contextra.Library.LexPrefix
import Contextra.Types

/-!
# Key ranges

The bounds of a range scan, over keys in their byte order.
-/

namespace Contextra.Store

open scoped Library.ByteOrder

inductive Bound where
  | included (key : Bytes)
  | excluded (key : Bytes)
  | unbounded
  deriving DecidableEq, Repr

namespace Bound

def AboveStart (key : Bytes) : Bound → Prop
  | included start => start ≤ key
  | excluded start => start < key
  | unbounded => True

def BelowEnd (key : Bytes) : Bound → Prop
  | included finish => key ≤ finish
  | excluded finish => key < finish
  | unbounded => True

instance (key : Bytes) (bound : Bound) : Decidable (bound.AboveStart key) :=
  match bound with
  | included start => inferInstanceAs (Decidable (start ≤ key))
  | excluded start => inferInstanceAs (Decidable (start < key))
  | unbounded => inferInstanceAs (Decidable True)

instance (key : Bytes) (bound : Bound) : Decidable (bound.BelowEnd key) :=
  match bound with
  | included finish => inferInstanceAs (Decidable (key ≤ finish))
  | excluded finish => inferInstanceAs (Decidable (key < finish))
  | unbounded => inferInstanceAs (Decidable True)

end Bound

end Contextra.Store
