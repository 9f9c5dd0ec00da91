import FluentNet.Handler.Steps
set_option autoImplicit false

/-! What becomes of a call of `shutdown` on a connected context. -/

namespace FluentNet
open Throwing Relation

def shutWrs : List Effect → List Int
  | [] => []
  | .shutWr unread :: log => unread :: shutWrs log
  | _ :: log => shutWrs log

@[simp] theorem shutWrs_append (l k : List Effect) : shutWrs (l ++ k) = shutWrs l ++ shutWrs k := by
  induction l with
  | nil => rfl
  | cons e l ih => cases e <;> simp [shutWrs,ih]

section Before

end Before

section After

end After

end FluentNet
