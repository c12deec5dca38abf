import Mathlib

/-!
# Sizes (`param.h`)

The kernel's tables have a slot 0.  Each of their sizes has its own instance, so that the literal `0`
of a slot type carries no proof of its own.
-/

namespace Xv6

/-- `NPROC` -/
instance nproc_neZero : NeZero 64 := ⟨by decide⟩

/-- `NINODE` -/
instance ninode_neZero : NeZero 50 := ⟨by decide⟩

/-- `INPUT_BUF`, and the words of a block -/
instance words_neZero : NeZero 128 := ⟨by decide⟩

end Xv6
