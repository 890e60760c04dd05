import CldcVm.Merge.CodeGenerator

/-!
# The reference merge

Models of `do_conform_to` and `has_register_conflict_with` (`compiler/Location.cpp`,
lines 56–161) and of `conform_to_reference_impl` (`compiler/VirtualStackFrame.cpp`,
lines 604–772).
-/

namespace CldcVm.Merge

namespace Gen

variable (c : Context)

/-- `is_register_identical_to`. -/
def isRegisterIdenticalTo (g : Gen) (index : ℕ) : Bool :=
  (locationAt c.other index).place == .register &&
    ((locationAt g.frame index).getRegister == (locationAt c.other index).getRegister &&
      (!isTwoWordAt g.frame index ||
        (locationAt g.frame (index + 1)).getRegister ==
          (locationAt c.other (index + 1)).getRegister))

/-- `is_used_in` the other frame. -/
def isUsedInOther (g : Gen) (index : ℕ) : Bool :=
  Merge.isMappingLocation c.other (locationAt g.frame index).getRegister ||
    isTwoWordAt g.frame index &&
      Merge.isMappingLocation c.other (locationAt g.frame (index + 1)).getRegister

/-- `merge_actions`, at a location of both frames. -/
def actionsAt (g : Gen) (index : ℕ) : Actions :=
  mergeActions (locationAt g.frame index).status (locationAt c.other index).status

/-- `has_register_conflict_with`. -/
def hasRegisterConflict (g : Gen) (index : ℕ) : Bool :=
  (locationAt g.frame index).place == .register &&
    (((g.actionsAt c index).regStore || (g.actionsAt c index).locStore) &&
      (g.isUsedInOther c index &&
        ((g.actionsAt c index).locStore || !g.isRegisterIdenticalTo c index)))

/-- The last part of `do_conform_to`: the store to the register. -/
def storeRegister (g : Gen) (index : ℕ) : Gen :=
  if (locationAt c.other index).place = .register then
    if (locationAt g.frame index).place = .register ∧ g.isRegisterIdenticalTo c index = true then g
    else g.move c index
  else g

/-- `conform_to`. -/
def conformTo (g : Gen) (index : ℕ) : Gen :=
  let actions := g.actionsAt c index
  let g := if actions.locLoad then g.updateCache c index else g
  let g := if actions.locStore then g.writeChanges c index else g
  if actions.regStore then g.storeRegister c index else g

/-- The step of `FOR_EACH_LOCATION_DONE`. -/
def isTwoWordInFrames (frame : List RawLocation) (index : ℕ) : Bool :=
  isTwoWordAt frame index ||
    (locationAt frame index).type == .illegal && isTwoWordAt c.other index

/-- `FOR_EACH_LOCATION_DO`. -/
def forEachLocation (body : ℕ → Gen → Gen) (g : Gen) : Gen :=
  forEach (isTwoWordInFrames c) body g.frame.length 0 g

/-- The first loop: locations with a register conflict are flushed. -/
def flushConflict (index : ℕ) (g : Gen) : Gen :=
  if g.hasRegisterConflict c index then g.flushRegisters index else g

/-- The second loop: immediates are stored to memory. -/
def storeFlushed (index : ℕ) (g : Gen) : Gen :=
  if (locationAt c.other index).status = .flushed ∧ (locationAt g.frame index).place = .immediate
  then g.conformTo c index
  else g

/-- The third loop. -/
def conformLocation (index : ℕ) (g : Gen) : Gen :=
  if (locationAt c.other index).status = .flushed ∨
      (locationAt c.other index).place ≠ .immediate
  then g.conformTo c index
  else g

/-- `conform_to_prologue`. -/
def conformToPrologue (g : Gen) : Gen :=
  { g with literals := fun _ => 0, frame := dropConflicts g.frame c.other }

/-- `conform_to_reference_impl`. -/
def conformToReferenceImpl (g : Gen) : Gen :=
  let g := g.conformToPrologue c
  let g := g.forEachLocation c (flushConflict c)
  let g := g.forEachLocation c (storeFlushed c)
  g.forEachLocation c (conformLocation c)

end Gen

end CldcVm.Merge
