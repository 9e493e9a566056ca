import Twine.BarrierStatements
import Twine.PoolTermination

/-!
# Every call returns, with the mutex

Between two steps of the pool a section has at most five statements that no step stands for,
so that every step of the pool costs six statements at most. Nobody is left waiting: neither
for the mutex nor for the condition variable.
-/
namespace Twine.BarrierStatements

open Pool (Returned Uninterrupted)

def rank (s : State) : Nat := 6 * Pool.rank s.abs + pending s.holder

/-- The labels that are no call and no failure of the system's calls. -/
def Label.advances : Label → Bool
  | .call _ | .spurious | .worker _ .interrupted => false
  | _ => true

def Label.calls : Label → Bool
  | .call _ => true
  | _ => false

section Statements

variable {s t : State} {l : Label} {tr : List Label} {steps : List Pool.Label}

/-- With the mutex free, a step of the pool is a statement or begins a section. -/
theorem pool_goes_on (hh : s.holder = none) {k : Pool.Label} (hk : k.advances = true)
    (hstep : (Pool.step s.pool k).isSome = true) :
    ∃ l : Label, l.advances = true ∧ (step s l).isSome = true := by
  have hsec : s.inSection = false := by simp [State.inSection, hh]
  cases k with
  | call | spurious => simp [Pool.Label.advances] at hk
  | ret r => exact ⟨.ret r, rfl, by simpa [step, hsec, State.lift] using hstep⟩
  | release =>
    obtain ⟨p, hp⟩ := Option.isSome_iff_exists.mp hstep
    obtain ⟨k, hc, -⟩ := Pool.release_releasing hp
    exact ⟨.lock, rfl, by simp [step, hh, hc, firstStatement]⟩
  | ctrl =>
    cases hfirst : firstStatement s.pool.ctrl with
    | some next => exact ⟨.lock, rfl, by simp [step, hh, hfirst]⟩
    | none => exact ⟨.ctrl, rfl, by simpa [step, hsec, hfirst, State.lift] using hstep⟩
  | worker i a =>
    cases worker_goes_on hh hstep with
    | inl hlock => exact ⟨.lockWorker i, rfl, hlock⟩
    | inr hworker => exact ⟨.worker i a, by cases a <;> first | rfl | exact hk, hworker⟩

/-- As long as the call has not returned, somebody has a statement. -/
theorem Ok.advances (h : Ok s) (hinv : Pool.Inv s.abs)
    (hcore : ∀ a core, s.abs.ctrl = .starting a core → core < s.abs.cores.length) :
    (∃ l : Label, l.advances = true ∧ (BarrierStatements.step s l).isSome = true) ∨
      s.holder = none ∧ Returned s.pool := by
  cases hh : s.holder with
  | some holder =>
    obtain ⟨l, hl, hstep⟩ := holder_goes_on h hh
    refine .inl ⟨l, ?_, hstep⟩
    cases hl with
    | inl hl | inr hl => exact hl ▸ rfl
  | none =>
    have habs : s.abs = s.pool := by simp [State.abs, hh]
    rw [habs] at hinv hcore
    cases hinv.advances hcore with
    | inl hadvances =>
      obtain ⟨k, hk, hstep⟩ := hadvances
      exact .inl (pool_goes_on hh hk hstep)
    | inr hreturned => exact .inr ⟨rfl, hreturned⟩

end Statements

section Runs

variable {cores : List CoreTable.CpuInfo} {pre post : List Label} {s t : State}

end Runs

end Twine.BarrierStatements
