/-!
Source tags. The host attaches a tag to an expression and gets the same tag back on the
diagnostics that the expression caused; nothing else looks inside it.
-/

namespace TypeResolution

/-- A range in a file that only the host knows. -/
structure SourceTag where
  file : UInt32
  start : UInt32
  length : UInt32
  deriving DecidableEq, Repr, Inhabited

namespace SourceTag

/-- The offset after the range; it stops at the largest offset. -/
def stop (t : SourceTag) : UInt32 :=
  if t.start.toNat + t.length.toNat < UInt32.size then t.start + t.length
  else UInt32.ofNat (UInt32.size - 1)

theorem toNat_stop (t : SourceTag) :
    t.stop.toNat = min (t.start.toNat + t.length.toNat) (UInt32.size - 1) := by
  unfold stop
  split
  · rename_i h
    rw [UInt32.toNat_add]
    simp only [UInt32.size] at h ⊢
    omega
  · rename_i h
    simp only [UInt32.size] at h ⊢
    simp
    omega

/-- The tag that a host gives when it has nothing to say. -/
def blank : SourceTag := ⟨0, 0, 0⟩

end SourceTag

end TypeResolution
