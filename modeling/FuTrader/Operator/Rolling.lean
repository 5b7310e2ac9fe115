import FuTrader.Common.Double
import FuTrader.Lib.SlidingWindow

/- rolling.hpp: sum, mean, deviation and skewness of the last `n` values, kept up to date
   value by value. -/
namespace Rolling
open FuTrader

section
variable {F : Type} [CMath F] {n : Nat}

def nanOrInf (x : F) : Bool := CMath.ne (x - x) Double.zero

structure Container (F : Type) (n : Nat) where
  buf : Vector F n
  headIdx : Fin n
  tailIdx : Fin n

namespace Container

def new {n : Nat} (positive : 0 < n) : Container F n :=
  ⟨Vector.replicate n CMath.NAN, ⟨0, positive⟩, ⟨0, positive⟩⟩

def head (c : Container F n) : F := c.buf[c.headIdx]
def tail (c : Container F n) : F := c.buf[c.tailIdx]

def index (c : Container F n) (idx : Nat) : Fin n :=
  ⟨(c.headIdx + idx) % n, Nat.mod_lt _ c.headIdx.pos⟩

def get (c : Container F n) (idx : Nat) : F := c.buf[c.index idx]

def update (c : Container F n) (newVal : F) : Container F n where
  tailIdx := c.headIdx
  buf := c.buf.set c.headIdx newVal
  headIdx := c.index 1

end Container

structure Sumer (F : Type) (n : Nat) where
  container : Container F n
  nanCount : Nat
  sum : F

namespace Sumer

def new {n : Nat} (positive : 0 < n) : Sumer F n := ⟨.new positive, n, Double.zero⟩

/-- The old value is taken out of the count or the sum, then the new one is put in. -/
def update (s : Sumer F n) (newVal : F) : F × Sumer F n :=
  let oldVal := s.container.head
  let (nanCount, sum) :=
    if nanOrInf oldVal then (s.nanCount - 1, s.sum) else (s.nanCount, s.sum - oldVal)
  let (nanCount, sum) :=
    if nanOrInf newVal then (nanCount + 1, sum) else (nanCount, sum + newVal)
  (if 0 < nanCount then CMath.NAN else sum, ⟨s.container.update newVal, nanCount, sum⟩)

end Sumer

structure Meaner (F : Type) (n : Nat) where
  sumer : Sumer F n

namespace Meaner

def new {n : Nat} (positive : 0 < n) : Meaner F n := ⟨.new positive⟩

def update (s : Meaner F n) (newVal : F) : F × Meaner F n :=
  let (sum, sumer) := s.sumer.update newVal
  (sum / CMath.ofNat n, ⟨sumer⟩)

end Meaner

structure Stder (F : Type) (n : Nat) where
  sumer : Sumer F n
  sqSumer : Sumer F n

namespace Stder

def new {n : Nat} (positive : 0 < n) : Stder F n := ⟨.new positive, .new positive⟩

def update (s : Stder F n) (newVal : F) : F × Stder F n :=
  let (sum, sumer) := s.sumer.update newVal
  let (sqSum, sqSumer) := s.sqSumer.update (newVal * newVal)
  let variance := (sqSum - sum * sum / CMath.ofNat n) / CMath.ofNat (n - 1)
  (CMath.sqrt variance, ⟨sumer, sqSumer⟩)

/-- The value under the square root. -/
def variance (s : Stder F n) (newVal : F) : F :=
  ((s.sqSumer.update (newVal * newVal)).1 -
    (s.sumer.update newVal).1 * (s.sumer.update newVal).1 / CMath.ofNat n) / CMath.ofNat (n - 1)

theorem update_value (s : Stder F n) (newVal : F) :
    (s.update newVal).1 = CMath.sqrt (s.variance newVal) := rfl

end Stder

end

section
variable {F : Type} [CPow F] {n : Nat}

structure Skewer (F : Type) (n : Nat) where
  meaner : Meaner F n
  sqSumer : Sumer F n
  cbSumer : Sumer F n

namespace Skewer

def new {n : Nat} (positive : 0 < n) : Skewer F n := ⟨.new positive, .new positive, .new positive⟩

def update (s : Skewer F n) (newVal : F) : F × Skewer F n :=
  let (mean, meaner) := s.meaner.update newVal
  let (sqSum, sqSumer) := s.sqSumer.update (newVal * newVal)
  let (cbSum, cbSumer) := s.cbSumer.update (newVal * newVal * newVal)
  let variance := sqSum / CMath.ofNat n - mean * mean
  ((cbSum / CMath.ofNat n - CPow.three * mean * variance - mean * mean * mean) /
    CPow.pow15 variance, ⟨meaner, sqSumer, cbSumer⟩)

/-- The value that is raised to 1.5 in the denominator. -/
def variance (s : Skewer F n) (newVal : F) : F :=
  (s.sqSumer.update (newVal * newVal)).1 / CMath.ofNat n -
    (s.meaner.update newVal).1 * (s.meaner.update newVal).1

def numerator (s : Skewer F n) (newVal : F) : F :=
  let mean := (s.meaner.update newVal).1
  (s.cbSumer.update (newVal * newVal * newVal)).1 / CMath.ofNat n -
    CPow.three * mean * s.variance newVal - mean * mean * mean

theorem update_value (s : Skewer F n) (newVal : F) :
    (s.update newVal).1 = s.numerator newVal / CPow.pow15 (s.variance newVal) := rfl

end Skewer

end

def fed {S F V : Type} (update : S → F → V × S) (s : S) (xs : List F) : S :=
  xs.foldl (fun s x => (update s x).2) s

/-! The container is a ring. -/

section
open SlidingWindow (Ring)
variable {F : Type} {n : Nat}

def Container.ring (c : Container F n) : Ring F n := ⟨c.buf, c.headIdx⟩

theorem head_ring (c : Container F n) : c.head = c.ring.get 0 := by
  have start : c.index 0 = c.headIdx := Fin.ext (Nat.mod_eq_of_lt c.headIdx.isLt)
  exact congrArg (fun p : Fin n => c.buf[p]) start.symm

end
end Rolling
