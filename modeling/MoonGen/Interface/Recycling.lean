import MoonGen.Interface.UpdateMode

/-! # Dynamic fields in recycled buffers

A load thread fills every buffer of its pool once, with the first values of the dynamic fields,
and from then on only calls `updateBuf` on the buffers that the pool hands out. A buffer that
has been sent comes back with what it held, so the modes that write a single field send stale
values of the others.
-/

namespace MoonGen.Interface

open Closure

variable {W P ι : Type} {c : Nat}

structure LoadPool (W P ι : Type) (c : Nat) where
  flow : DynFlow W c
  count : Nat
  mem : ι → P

namespace LoadPool

variable [DecidableEq ι] (env : DynEnv W P)

/-- `updateBuf` on the next buffer; `which n` is the one that the pool hands out for packet `n`. -/
def call (which : Nat → ι) (s : LoadPool W P ι c) : P × LoadPool W P ι c :=
  let buf := which (s.count + 1)
  let (pkt, flow) := s.flow.updateBuf env (s.mem buf)
  (pkt, ⟨flow, s.count + 1, Function.update s.mem buf pkt⟩)

/-- `createMemPool` calls `fillBuf` on every buffer. -/
def create (flow : DynFlow W c) (filled : P) : LoadPool W P ι c := ⟨flow, 0, fun _ => filled⟩

end LoadPool

def UpdateFn.AppliesAll : UpdateFn c → Prop
  | .single _ | .random _ | .all => True
  | .alternating _ | .randomAlt _ => False

section Call

variable {env : DynEnv W P} {acc : Accessors env} {d : Fin c → Dynvar}

/-- The upvalue of a mode after a call. -/
def UpdateFn.next : UpdateFn c → UpdateFn c
  | .single index => .single (incAndWrap index)
  | .alternating index => .alternating (incAndWrap index)
  | fn => fn

theorem UpdateFn.AppliesAll.next {fn : UpdateFn c} (h : fn.AppliesAll) : fn.next.AppliesAll := by
  cases fn with
  | alternating index => exact h.elim
  | randomAlt hc => exact h.elim
  | _ => trivial

end Call

/-! ## The packets of a load thread -/

section Run

variable [DecidableEq ι] (env : DynEnv W P) (which : Nat → ι) (s : LoadPool W P ι c)

def LoadPool.sent (n : Nat) : LoadPool W P ι c := after (LoadPool.call env which) s n

def LoadPool.packet (n : Nat) : P := nth (LoadPool.call env which) s n

theorem LoadPool.sent_succ (n : Nat) :
    s.sent env which (n + 1) = ((s.sent env which n).call env which).2 := after_succ _ _ _

variable {s}

theorem count_sent (hs : s.count = 0) (n : Nat) : (s.sent env which n).count = n := by
  induction n with
  | zero => exact hs
  | succ n ih =>
      rw [LoadPool.sent_succ]
      exact congrArg (· + 1) ih

variable {env} {acc : Accessors env} {d : Fin c → Dynvar}

end Run

end MoonGen.Interface
