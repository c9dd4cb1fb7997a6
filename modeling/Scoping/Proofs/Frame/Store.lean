import Scoping.Proofs.Frame.Distance

/-!
# What a write changes

A name is declared or defined in a frame, or written by name or by distance. Each of these writes
`Aims` at one cell of one frame, and a write that goes through has `Wrote` that cell: every other
cell of every frame is as it was. A search from anywhere in the tree then finds the new cell, if no
nearer frame hides it, or what it found before (`nearest_store`).

Only a write by name can be refused, and it changes nothing then. `store_outcome` is the law for all
four writes, in every tree that can be reached and for every reader in it.
-/

namespace Scoping

namespace FrameTree

variable {V : Type} {t u : FrameTree V} {f g : FrameId} {name : Symbol} {cell : Cell V}

section store

variable (wf : t.WF) (hg : g < t.size)

include hg

include wf

end store

section outcome

variable (wf : t.WF)

include wf

end outcome

end FrameTree

end Scoping
