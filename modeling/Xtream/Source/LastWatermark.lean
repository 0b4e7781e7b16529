import Xtream.Source.Contract

/-!
# The last watermark of the source

The last watermark is sent at the first attempt that sees the overall maximum: at the end of the
period in which the maximum is reached first.

* `settled`: the number of events before it;
* `schedule_last`: what stands before and after it.
-/

namespace Xtream

theorem exists_time_eq_maxTime {es : List (Event Record)} (h : es ≠ []) :
    ∃ e ∈ es, time e = maxTime es := by
  induction es with
  | nil => exact absurd rfl h
  | cons e es ih =>
    rw [← List.singleton_append, maxTime_append, maxTime_singleton]
    rcases Nat.le_total (maxTime es) (time e) with hle | hle
    · exact ⟨e, List.mem_cons_self, (Nat.max_eq_left hle).symm⟩
    · by_cases hnil : es = []
      · exact ⟨e, List.mem_cons_self, by simp [hnil]⟩
      · obtain ⟨e', he', hts⟩ := ih hnil
        exact ⟨e', List.mem_cons_of_mem _ he', by rw [hts, Nat.max_eq_right hle]⟩

namespace SourcePhysicalOperator

/-- The number of events in the periods up to the one in which the maximum is reached first; 0 if
no watermark is sent because the maximum is below the lateness. -/
def settled (lateness interval : UInt64) (es : List (Event Record)) : Nat :=
  if maxTime es < lateness.toNat then 0
  else (es.findIdx (fun e => time e = maxTime es) / period interval + 1) * period interval

section

variable {lateness interval sourceId : UInt64} {es : List (Event Record)}

/-- An attempt after `c` events is the first to see the maximum: the maximum is reached in its
period. -/
theorem findIdx_div (interval : UInt64) {M c : Nat} (hc : 0 < c) (hle : c ≤ es.length)
    (hmax : ∃ e ∈ es.take c, time e = M)
    (hbefore : ∀ e ∈ es.take ((c - 1) / period interval * period interval), time e ≠ M) :
    es.findIdx (fun e => time e = M) / period interval = (c - 1) / period interval := by
  have hp := period_pos interval
  have hlt : es.findIdx (fun e => time e = M) < c := by
    obtain ⟨e, he, hM⟩ := hmax
    have hfirst : (es.take c).findIdx (fun e => time e = M) < (es.take c).length :=
      List.findIdx_lt_length_of_exists ⟨e, he, by simpa using hM⟩
    have happend := @List.findIdx_append _ (fun e => decide (time e = M)) (es.take c) (es.drop c)
    rw [List.take_append_drop, if_pos hfirst] at happend
    rw [happend]
    exact hfirst.trans_le (List.length_take_le _ _)
  have hge : (c - 1) / period interval * period interval ≤ es.findIdx (fun e => time e = M) := by
    have hdiv := Nat.div_mul_le_self (c - 1) (period interval)
    refine List.le_findIdx_of_not (by omega) fun j hj => ?_
    have hjlt : j < es.length := by omega
    have hmem : es[j] ∈ es.take ((c - 1) / period interval * period interval) :=
      List.mem_take_iff_getElem.mpr ⟨j, by omega, rfl⟩
    simpa using hbefore _ hmem
  apply Nat.le_antisymm
  · exact Nat.div_le_div_right (by omega)
  · exact (Nat.le_div_iff_mul_le hp).mpr hge

/-- The actions split at the last watermark that is sent. -/
theorem exists_split_last {actions : List SourceAction} {wm : Watermark}
    (h : (sent actions).getLast? = some wm) :
    ∃ pre post, actions = pre ++ .attempt (some wm) :: post ∧ sent post = [] := by
  obtain ⟨init, hinit⟩ := List.getLast?_eq_some_iff.mp h
  obtain ⟨as, bs, rfl, -, hbs⟩ := List.filterMap_eq_append_iff.mp hinit
  obtain ⟨cs, a, post, rfl, -, ha, hpost⟩ := List.filterMap_eq_cons_iff.mp hbs
  obtain rfl : a = .attempt (some wm) := by
    cases a with
    | forward e => cases ha
    | attempt w =>
      cases ha
      rfl
  exact ⟨as ++ cs, post, by rw [List.append_assoc], hpost⟩

/-- The schedule starts with an event. -/
theorem forwarded_ne_nil (hne : es ≠ []) {pre post : List SourceAction} {w : Option Watermark}
    (h : schedule lateness interval sourceId [] es = pre ++ .attempt w :: post) :
    forwarded pre ≠ [] := by
  cases es with
  | nil => exact absurd rfl hne
  | cons e es =>
    unfold schedule at h
    cases pre with
    | nil => cases h
    | cons a pre =>
      injection h with ha
      rw [← ha]
      exact List.cons_ne_nil _ _

/-- A period ends with the last one of `c` events. -/
theorem period_ends {p c : Nat} (hp : 0 < p) (hc : 0 < c) (h : p ∣ c) :
    ((c - 1) / p + 1) * p = c := by
  obtain ⟨q, rfl⟩ := h
  obtain ⟨r, rfl⟩ : ∃ r, q = r + 1 := Nat.exists_eq_succ_of_ne_zero (Nat.pos_of_mul_pos_left hc).ne'
  have hlen : p * (r + 1) - 1 = p * r + (p - 1) := by
    rw [Nat.mul_succ]
    omega
  rw [hlen, Nat.mul_add_div hp, Nat.div_eq_of_lt (by omega), Nat.add_zero, Nat.mul_comm]

/-- The last watermark: it is at the overall maximum, and the events before it are those of the
periods up to the one in which the maximum is reached first. -/
theorem schedule_last (hne : es ≠ []) (hle : lateness.toNat ≤ maxTime es) :
    ∃ pre wm post, schedule lateness interval sourceId [] es =
        pre ++ .attempt (some wm) :: post ∧ sent post = [] ∧
      forwarded pre = es.take (settled lateness interval es) ∧
      wm.timestamp.toNat + lateness.toNat = maxTime es := by
  have hlast := @last_sent lateness interval sourceId es
  rw [if_pos ⟨hne, hle⟩] at hlast
  obtain ⟨wm, hlast, hts⟩ := hlast
  obtain ⟨pre, post, hsplit, hpost⟩ := exists_split_last hlast
  have hfne := forwarded_ne_nil hne hsplit
  obtain ⟨hw, hcases⟩ := schedule_split hsplit
  have hforwarded : es = forwarded pre ++ forwarded post := by
    rw [← @forwarded_schedule lateness interval sourceId [] es, hsplit]
    simp
  refine ⟨pre, wm, post, hsplit, hpost, ?_, by omega⟩
  rw [List.nil_append] at hw hcases
  generalize forwarded pre = fwd at *
  obtain ⟨hmax, hgrown⟩ := watermarkAfter_eq_some hw.symm
  have htake : es.take fwd.length = fwd := by
    rw [hforwarded, List.take_left]
  have hprev : attempted interval fwd.dropLast =
      es.take ((fwd.length - 1) / period interval * period interval) := by
    have hdiv := Nat.div_mul_le_self (fwd.length - 1) (period interval)
    rw [attempted, List.length_dropLast, List.dropLast_eq_take, List.take_take,
      Nat.min_eq_left hdiv, hforwarded, List.take_append_of_le_length (by omega)]
  have hbefore : ∀ e ∈ es.take ((fwd.length - 1) / period interval * period interval),
      time e ≠ maxTime es := by
    intro e he
    rw [← hprev] at he
    have hle' := time_le_maxTime he
    have := hgrown (List.ne_nil_of_mem he)
    omega
  have hpos := List.length_pos_iff.mpr hfne
  have hperiod := findIdx_div interval hpos (by
    rw [hforwarded, List.length_append]
    exact Nat.le_add_right _ _) (by
    rw [htake]
    obtain ⟨e, he, hM⟩ := exists_time_eq_maxTime hfne
    exact ⟨e, he, by omega⟩) hbefore
  rw [settled, if_neg (by omega), hperiod]
  have hp := period_pos interval
  rcases hcases with rfl | ⟨rest, -, ⟨q, hq⟩, -⟩
  · -- the attempt of `close`: there are no events after it
    rw [forwarded_nil, List.append_nil] at hforwarded
    rw [List.take_of_length_le]
    · exact hforwarded.symm
    · have := Nat.lt_div_mul_add hp (a := fwd.length - 1)
      rw [Nat.succ_mul, hforwarded]
      omega
  · -- an attempt at the end of a period
    rw [period_ends hp hpos ⟨q, hq⟩, htake]

end

end SourcePhysicalOperator

end Xtream
