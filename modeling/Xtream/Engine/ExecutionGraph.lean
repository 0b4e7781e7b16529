import Xtream.Engine.Compiler

/-!
# The execution graph (`src/engine/execution_graph.h`)

`build` cuts the compiled chain behind every window: the window writes a new channel, and a channel
source reads it at the root of the next pipeline. A chain here is what is reached from an operator
over `next_`, so `set_next(nullptr)` on the window ends the chain there.
-/

namespace Xtream

namespace ExecutionGraph

variable {U : Type}

/-- The inner loop: the operators before the first window, the window, and those behind it. -/
def findWindow : Chain U → Option (Chain U × PhysicalOperator U × Chain U)
  | [] => none
  | op :: rest =>
    if op.isWindow then some ([], op, rest)
    else (findWindow rest).map fun r => (op :: r.1, r.2)

/-- The variables of the outer loop; `channels` channels have been made. -/
structure BuildState (U : Type) where
  current : Chain U
  roots : List (Chain U)
  channels : Nat

/-- The body of the outer loop. -/
def buildRound (s : BuildState U) : Option (While.Control (BuildState U)) :=
  match findWindow s.current with
  | none => some (.brk { s with roots := s.roots ++ [s.current] })
  | some (before, window, downstream) =>
    some (.next
      { current := .channelSource ⟨s.channels, false⟩ :: downstream
        roots := s.roots ++ [before ++ [window.setOutputChannel s.channels]]
        channels := s.channels + 1 })

/-- The outer loop, from a compiled chain. -/
def buildFrom (fuel : Nat) (root : Chain U) : Option (List (Chain U)) :=
  (While.run (fun s : BuildState U => !s.current.isEmpty) buildRound fuel ⟨root, [], 0⟩).map
    BuildState.roots

/-- `build`. -/
def build (fuel : Nat) (keys : List OperatorId) (g : DataflowGraph U) :
    Option (List (Chain U)) := do
  let root ← Pipeline.ofGraph fuel keys g
  buildFrom fuel root

/-- The pipelines run to completion, one after the other: all their calls. -/
def runInOrder (fuel : Nat) : List (Chain U) → Channels → Option (List Output)
  | [], _ => some []
  | ops :: pipelines, chs => do
    let r ← Pipeline.run fuel ops chs
    let outs ← runInOrder fuel pipelines r.2.1
    return r.2.2 ++ outs

/-! ## The pipelines of a chain -/

/-- The pipelines of a chain, with the operators `acc` of the first one already taken; the first
channel has the number `n`. -/
def pipelines (n : Nat) (acc : Chain U) : Chain U → List (Chain U)
  | [] => [acc]
  | op :: rest =>
    if op.isWindow then
      (acc ++ [op.setOutputChannel n]) :: pipelines (n + 1) [.channelSource ⟨n, false⟩] rest
    else pipelines n (acc ++ [op]) rest

theorem pipelines_of_none {n : Nat} {acc ops : Chain U} (h : findWindow ops = none) :
    pipelines n acc ops = [acc ++ ops] := by
  induction ops generalizing acc with
  | nil => simp [pipelines]
  | cons op rest ih =>
    unfold findWindow at h
    split at h
    · cases h
    · rename_i hop
      rw [Option.map_eq_none_iff] at h
      rw [pipelines, if_neg hop, ih h]
      simp

theorem pipelines_of_some {n : Nat} {acc ops before downstream : Chain U}
    {window : PhysicalOperator U} (h : findWindow ops = some (before, window, downstream)) :
    pipelines n acc ops = (acc ++ before ++ [window.setOutputChannel n]) ::
      pipelines (n + 1) [.channelSource ⟨n, false⟩] downstream := by
  induction ops generalizing acc before with
  | nil => cases h
  | cons op rest ih =>
    unfold findWindow at h
    split at h
    · rename_i hop
      cases h
      rw [pipelines, if_pos hop, List.append_nil]
    · rename_i hop
      obtain ⟨⟨first, w, d⟩, hr, heq⟩ := Option.map_eq_some_iff.mp h
      cases heq
      rw [pipelines, if_neg hop, ih hr]
      simp

theorem findWindow_length {ops before downstream : Chain U} {window : PhysicalOperator U}
    (h : findWindow ops = some (before, window, downstream)) :
    ops.length = before.length + downstream.length + 1 := by
  induction ops generalizing before with
  | nil => cases h
  | cons op rest ih =>
    unfold findWindow at h
    split at h
    · cases h
      simp
    · obtain ⟨⟨first, w, d⟩, hr, heq⟩ := Option.map_eq_some_iff.mp h
      cases heq
      have hlen := ih hr
      simp only [List.length_cons]
      omega

/-- The outer loop ends and cuts the chain behind every window, when the root is no window. -/
theorem run_buildRound {fuel : Nat} {s : BuildState U} (hne : s.current ≠ [])
    (hroot : ∀ op ∈ s.current.head?, op.isWindow = false) (hfuel : s.current.length ≤ fuel) :
    (While.run (fun s : BuildState U => !s.current.isEmpty) buildRound fuel s).map
      BuildState.roots = some (s.roots ++ pipelines s.channels [] s.current) := by
  induction fuel generalizing s with
  | zero => exact absurd (List.length_eq_zero_iff.mp (Nat.le_zero.mp hfuel)) hne
  | succ n ih =>
    have htest : (!s.current.isEmpty) = true := by simpa using hne
    rw [While.run, if_pos htest, buildRound]
    cases h : findWindow s.current with
    | none => simp [pipelines_of_none h]
    | some r =>
      obtain ⟨before, window, downstream⟩ := r
      have hlen := findWindow_length h
      have hbefore : before ≠ [] := by
        rintro rfl
        cases hs : s.current with
        | nil => exact hne hs
        | cons op rest =>
          have hop := hroot op (by simp [hs])
          rw [hs, findWindow, hop] at h
          obtain ⟨r, -, heq⟩ := Option.map_eq_some_iff.mp h
          cases heq
      have hpos := List.length_pos_iff.mpr hbefore
      rw [ih (List.cons_ne_nil _ _) (by simp [PhysicalOperator.isWindow]) (by
        simp only [List.length_cons]
        omega), pipelines_of_some h]
      simp [pipelines, PhysicalOperator.isWindow]

/-- `build` cuts the chain behind every window. -/
theorem buildFrom_eq {fuel : Nat} {root : PhysicalOperator U} (hroot : root.isWindow = false)
    {rest : Chain U} (hfuel : rest.length + 1 ≤ fuel) :
    buildFrom fuel (root :: rest) = some (pipelines 0 [root] rest) := by
  have h := @run_buildRound U fuel ⟨root :: rest, [], 0⟩ (List.cons_ne_nil _ _)
    (by simpa using hroot) hfuel
  rw [buildFrom, h]
  simp [pipelines, hroot]

/-- `build` cuts the chain behind every window, the root among them. -/
theorem buildFrom_pipelines {fuel : Nat} {ops : Chain U} (hne : ops ≠ [])
    (hfuel : ops.length + 1 ≤ fuel) : buildFrom fuel ops = some (pipelines 0 [] ops) := by
  cases ops with
  | nil => exact absurd rfl hne
  | cons root rest =>
    rw [List.length_cons] at hfuel
    cases hroot : root.isWindow with
    | false =>
      rw [buildFrom_eq hroot (by omega), pipelines, if_neg (by simp [hroot])]
      rfl
    | true =>
      obtain ⟨n, rfl⟩ : ∃ n, fuel = n + 1 := ⟨fuel - 1, by omega⟩
      have hrest := @run_buildRound U n
        ⟨.channelSource ⟨0, false⟩ :: rest, [[root.setOutputChannel 0]], 1⟩ (List.cons_ne_nil _ _)
        (by simp [PhysicalOperator.isWindow]) (by simp only [List.length_cons]; omega)
      have hround : buildRound ⟨root :: rest, [], 0⟩ = some (.next
          ⟨.channelSource ⟨0, false⟩ :: rest, [[root.setOutputChannel 0]], 1⟩) := by
        simp [buildRound, findWindow, hroot]
      rw [buildFrom, While.run, hround]
      refine hrest.trans ?_
      have hsource : (PhysicalOperator.channelSource (U := U) ⟨0, false⟩).isWindow = false := rfl
      simp [pipelines, hroot, hsource]

end ExecutionGraph

end Xtream
