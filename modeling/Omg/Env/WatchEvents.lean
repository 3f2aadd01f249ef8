import Mathlib.Order.MinMax

/-!
# Reruns of a watched task

The watcher waits for a file event, then for a time without events, and runs the task again.
Times are those of one clock. Receiving takes no time of its own, and an event that is there when
a wait ends is received.

Source: `src/core/task_runner.rs`.
-/

namespace Omg.Env

open List

/-- The times at which file events are sent, and the time at which the channel closes. -/
structure WatchSchedule where
  events : List ℕ
  close : ℕ
  sorted : events.Pairwise (· ≤ ·)
  le_close : ∀ e ∈ events, e ≤ close

/-- A rerun of the task, with the events received for it: when each was sent and received. -/
structure Rerun where
  batch : List (ℕ × ℕ)
  start : ℕ

section

variable (close debounce : ℕ)

/-- The two loops of `process_watch_events`, from the time `now`: the reruns, and the time at which
the outer loop is left. The outer loop waits while the batch is empty, the inner loop while it is
not. The rerun of number `k` takes the time `run k`. -/
def processWatchEvents (run : ℕ → ℕ) (now k : ℕ) (batch : List (ℕ × ℕ)) :
    List ℕ → List Rerun × ℕ
  | [] =>
    if batch = [] then ([], max now close)
    else if close ≤ now + debounce then
      ([⟨batch, max now close⟩], max now close + run k)
    else ([⟨batch, now + debounce⟩], max (now + debounce + run k) close)
  | e :: es =>
    if batch = [] ∨ e ≤ now + debounce then
      processWatchEvents run (max now e) k (batch ++ [(e, max now e)]) es
    else
      -- the wait times out, and after the rerun the outer loop receives the event
      let received := max (now + debounce + run k) e
      let later := processWatchEvents run received (k + 1) [(e, received)] es
      (⟨batch, now + debounce⟩ :: later.1, later.2)

/-- What holds of the reruns for events that are received from the time `now` on. -/
structure Serves (now : ℕ) (events : List ℕ) (reruns : List Rerun) (stop : ℕ) : Prop where
  close_le : close ≤ stop
  /-- Every event is received for one rerun, in the order of the events. -/
  sent : (reruns.flatMap Rerun.batch).map Prod.fst = events
  /-- The rerun starts after the event is received. -/
  received : ∀ r ∈ reruns, ∀ x ∈ r.batch, x.1 ≤ x.2 ∧ x.2 ≤ r.start
  /-- Every rerun has an event, and its events were sent after the reruns before it started. -/
  ne_nil : ∀ r ∈ reruns, r.batch ≠ []
  fresh : reruns.Pairwise fun p r => ∀ x ∈ r.batch, p.start < x.1
  /-- No event came less than the debounce time before a rerun, unless the channel is closed. -/
  quiet : ∀ r ∈ reruns, close ≤ r.start ∨ ∀ e ∈ events, e ≤ r.start → e + debounce ≤ r.start
  now_le : ∀ r ∈ reruns, now ≤ r.start

variable {close debounce} {now stop start t : ℕ} {es : List ℕ} {batch : List (ℕ × ℕ)}
  {later : List Rerun}

lemma Serves.nil (h : close ≤ stop) : Serves close debounce now [] [] stop := by
  constructor <;> simp [h]

lemma Serves.cons (hb : ∀ x ∈ batch, x.1 ≤ x.2 ∧ x.2 ≤ now) (hne : batch ≠ [])
    (hnow : now ≤ start) (hes : ∀ e ∈ es, start < e)
    (hq : close ≤ start ∨ now + debounce ≤ start) (ht : start ≤ t)
    (h : Serves close debounce t es later stop) :
    Serves close debounce now (batch.map Prod.fst ++ es) (⟨batch, start⟩ :: later) stop := by
  have hlater : ∀ r ∈ later, start ≤ r.start := fun r hr => ht.trans (h.now_le r hr)
  have hold : ∀ s, start ≤ s → close ≤ s ∨ ∀ e ∈ batch.map Prod.fst, e + debounce ≤ s := by
    refine fun s hs => hq.imp (·.trans hs) fun hd => forall_mem_map.mpr fun x hx => ?_
    have := hb x hx
    omega
  refine ⟨h.close_le, ?_, ?_, ?_, ?_, ?_, ?_⟩
  · rw [flatMap_cons, map_append, h.sent]
  · exact forall_mem_cons.mpr ⟨fun x hx => (hb x hx).imp_right (·.trans hnow), h.received⟩
  · exact forall_mem_cons.mpr ⟨hne, h.ne_nil⟩
  · refine pairwise_cons.mpr ⟨fun r hr x hx => hes _ ?_, h.fresh⟩
    exact h.sent ▸ mem_map_of_mem (mem_flatMap.mpr ⟨r, hr, hx⟩)
  · simp only [forall_mem_append]
    refine forall_mem_cons.mpr ⟨?_, fun r hr => ?_⟩
    · refine (hold start le_rfl).imp_right fun ho => ⟨fun e he _ => ho e he, fun e he hle => ?_⟩
      exact absurd hle (Nat.not_le.mpr (hes e he))
    · rcases hold _ (hlater r hr) with hc | ho
      · exact .inl hc
      · exact (h.quiet r hr).imp_right fun hr => ⟨fun e he _ => ho e he, hr⟩
  · exact forall_mem_cons.mpr ⟨hnow, fun r hr => hnow.trans (hlater r hr)⟩

lemma serves_processWatchEvents (run : ℕ → ℕ) (k : ℕ) (hes : es.Pairwise (· ≤ ·))
    (hb : ∀ x ∈ batch, x.1 ≤ x.2 ∧ x.2 ≤ now) :
    let out := processWatchEvents close debounce run now k batch es
    Serves close debounce now (batch.map Prod.fst ++ es) out.1 out.2 := by
  fun_induction processWatchEvents close debounce run now k batch es with
  | case1 now k => exact .nil (le_max_right ..)
  | case2 now k batch hne =>
    have hle := le_max_right now close
    exact .cons hb hne (le_max_left ..) (by simp) (.inl hle) le_rfl
      (.nil (hle.trans (Nat.le_add_right ..)))
  | case3 now k batch hne =>
    exact .cons hb hne (Nat.le_add_right ..) (by simp) (.inr le_rfl) le_rfl (.nil (le_max_right ..))
  | case4 now k batch e es hin ih =>
    have h := ih (pairwise_cons.mp hes).2 <| forall_mem_append.mpr
      ⟨fun x hx => (hb x hx).imp_right (·.trans (le_max_left ..)), by simp [le_total]⟩
    rw [map_append, append_assoc] at h
    exact { h with now_le := fun r hr => (le_max_left ..).trans (h.now_le r hr) }
  | case5 now k batch e es hout received later ih =>
    obtain ⟨hne, hlt⟩ := not_or.mp hout
    obtain ⟨hle, hes⟩ := pairwise_cons.mp hes
    have hlt := Nat.lt_of_not_le hlt
    refine .cons hb hne (Nat.le_add_right ..) ?_ (.inr le_rfl) ?_
      (ih hes (by simp [received, le_total]))
    · exact forall_mem_cons.mpr ⟨hlt, fun x hx => hlt.trans_le (hle x hx)⟩
    · exact (Nat.le_add_right ..).trans (le_max_left ..)

end

/-- The loop is left after the channel closes, and until then it serves the schedule. -/
theorem processWatchEvents_serves (schedule : WatchSchedule) (debounce now : ℕ) (run : ℕ → ℕ) :
    let out := processWatchEvents schedule.close debounce run now 0 [] schedule.events
    Serves schedule.close debounce now schedule.events out.1 out.2 := by
  have hb : ∀ x ∈ ([] : List (ℕ × ℕ)), x.1 ≤ x.2 ∧ x.2 ≤ now := by simp
  exact serves_processWatchEvents run 0 schedule.sorted hb

def threeEvents : WatchSchedule := ⟨[1, 2, 10], 20, by decide, by decide⟩

/-- Two events that come within the debounce time share a rerun, and a later one has its own. -/
theorem processWatchEvents_serves_three :
    let out := processWatchEvents threeEvents.close 3 (fun _ => 1) 0 0 [] threeEvents.events
    Serves threeEvents.close 3 0 threeEvents.events out.1 out.2 ∧
      out.1.map Rerun.start = [5, 13] :=
  ⟨processWatchEvents_serves threeEvents 3 0 fun _ => 1, by decide⟩

end Omg.Env
