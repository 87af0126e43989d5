/-! Computations that may fail. -/

set_option autoImplicit false

namespace Xpl.Library

/-- A computation goes on with what it is given. -/
theorem some_bind {α β : Type} (a : α) (f : α → Option β) : (some a >>= f) = f a := rfl

end Xpl.Library
