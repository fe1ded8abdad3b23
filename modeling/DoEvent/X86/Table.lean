import DoEvent.Registry
import DoEvent.X86.Serial

/-!
# The event table on x86

The two ends of the development: the instructions of the lock with the loads and stores of
the calls at the bottom, and the table of events at the top. What the tasks see of opens,
chowns, chmods, stats and infos that run at the same time on several CPUs is what they would
see of a table that serves them one after the other.
-/

namespace DoEvent

/-- The table serves one call, and the caller finds the result in its memory. -/
def TableCall (q : Registry × (Task → UserMem)) (t : Task) (a : Cred × Call) (b : Int × UserMem)
    (q' : Registry × (Task → UserMem)) : Prop :=
  q.1.Serves a.1 (q.2 t) a.2 (some b.1) q'.1 b.2 ∧ q'.2 = Function.update q.2 t b.2

/-- Nobody is in a call, and there is an event. -/
structure Resting (s : State) : Prop where
  list : ListInv s
  own : LocalInv s
  pc : ∀ t, s.pc t = .user
  listed : s.registry ≠ []

section
variable {s s' q q' : State} {x : Action} {t : Task} {c : Cred} {k : Call}

open Transition

/-- Steps of one task, with everybody else in user mode. -/
theorem alone_step (h : ListInv s ∧ LocalInv s ∧ ∀ u, u ≠ t → s.pc u = .user) (hx : x.task = t)
    (hst : step s x = some s') : ListInv s' ∧ LocalInv s' ∧ ∀ u, u ≠ t → s'.pc u = .user := by
  obtain ⟨hlist, hown, hother⟩ := h
  have halone : UnlinksAlone s x := fun a _ u hu hholds => by
    rw [State.holds, hother u (hx ▸ hu)] at hholds
    cases hholds
  refine ⟨hlist.step halone hst, hown.step hst, fun u hu => ?_⟩
  rw [step_pc_of_ne hst (hx ▸ hu)]
  exact hother u hu

/-- Opens, chowns, chmods, stats and infos do not empty the table. -/
theorem Registry.Serves.listed {R R' : Registry} {m m' : UserMem} {o : Option Int}
    (h : R.Serves c m k o R' m') (hk : sharesList k.kind = true) (hR : R ≠ []) : R' ≠ [] := by
  have hmodify : ∀ f i, R.modify f i ≠ [] := by
    intro f i
    cases R with
    | nil => exact absurd rfl hR
    | cons e R =>
      rw [Registry.modify]
      split <;> exact List.cons_ne_nil _ _
  have hchecked : ∀ {may : Prop} {f i}, R.Checked may o R' (o = some 0 ∧ R' = R.modify f i) →
      R' ≠ [] := by
    intro may f i hc
    by_cases hmay : may
    · rw [(hc.1 hmay).2]
      exact hmodify f i
    · rw [(hc.2 hmay).2]
      exact hR
  cases k with
  | doeventopen =>
    rcases h.2 with ⟨_, hR'⟩ | ⟨_, hR'⟩ <;> rw [hR']
    · exact hR
    · exact List.append_ne_nil_of_left_ne_nil hR _
  | doeventchown | doeventchmod => exact hchecked h.2
  | doeventstat | doeventinfo =>
    rw [h.1]
    exact hR
  | doeventclose | doeventwait | doeventsig => cases hk

/-- A call executed alone is served by the table. -/
theorem Resting.call {a : Cred × Call} {b : Int × UserMem} (h : Resting q)
    (hk : sharesList a.2.kind = true) (hcall : SerialCall q t a b q') :
    TableCall (q.registry, q.user) t a b (q'.registry, q'.user) ∧ Resting q' := by
  obtain ⟨q₁, hends, huser, hret⟩ := hcall
  have hne : q.eventlist ≠ [] := fun hnil => h.listed (by rw [State.registry, hnil]; rfl)
  have hrq := onRq_of_user h.own (h.pc t)
  have hserves := callEnds_serves h.list (fun hnil => absurd hnil hne) (h.pc t) hrq (.inl hne) hends
  have hothers : ∀ u, u ≠ t → q₁.user u = q.user u := fun u hu => callEnds_user (h.pc t) hends hu
  obtain ⟨m, hentry, xs, hrun, hpc⟩ := hends
  have hpc : q₁.pc t = .ret b.1 := hpc
  have hm := alone_step ⟨h.list, h.own, fun u _ => h.pc u⟩ rfl hentry
  have hq₁ := hrun.invariant (fun s => ListInv s ∧ LocalInv s ∧ ∀ u, u ≠ t → s.pc u = .user) hm
    fun s x s' hi hown hst => alone_step hi hown.task hst
  obtain ⟨hlist, hown, hother⟩ := alone_step hq₁ rfl hret
  obtain ⟨_, htable, hmem⟩ := resumes_step (by rw [hpc]; rfl) (.inl rfl) hret
  rw [huser, ← htable] at hserves
  refine ⟨⟨hserves, ?_⟩, hlist, hown, fun u => ?_, hserves.listed hk h.listed⟩
  · refine hmem.trans (funext fun u => ?_)
    by_cases hu : u = t
    · rw [hu, Function.update_self]
      exact huser
    · rw [Function.update_of_ne hu]
      exact hothers u hu
  · by_cases hu : u = t
    · subst hu
      obtain ⟨e, p, hf, rfl⟩ := step_run hret
      rw [hpc] at hf
      cases hf
      rw [goto_pc, Function.update_self]
    · exact hother u hu

end

end DoEvent

namespace DoEvent.X86

open Shared Transition

/-- The table in memory: what is found along the pointers from `allevents`. -/
def State.HasTable (s : State) (R : Registry) : Prop :=
  ∃ l, (Locked.links s.node).Ring allevents l ∧ R = l.map (tableEntry (Locked.events s.node))

theorem AtRest.hasTable {s : State} {c : DoEvent.State} (h : AtRest s c) : s.HasTable c.registry :=
  ⟨c.eventlist, h.ring, by rw [DoEvent.State.registry, h.mem]⟩

/-- Whatever is invoked in a run is one of the calls of the run. -/
theorem call_of_invoke {s : State} {ys : List Action} {t : Task} {a : Cred × Call}
    (h : .invoke t a ∈ observe step callEvents s ys) : .call t a.1 a.2 ∈ ys := by
  obtain ⟨m, x, hx, hmem⟩ := mem_observe h
  cases x with
  | call u c k =>
    cases List.mem_singleton.mp hmem
    exact hx
  | run u =>
    simp only [callEvents, Locked.callEvents] at hmem
    split at hmem
    · cases List.mem_singleton.mp hmem
    · cases hmem
  | _ => cases hmem

/-- On at most 129 CPUs, from a state with an event in which nobody is in a call, in every
interleaving of the instructions of the lock with the loads and stores of opens, chowns,
chmods, stats and infos, after which everybody is back in user mode: if no owner changes, or
only root changes events, then the table in memory has served the calls one after the other,
in an order that respects real time. -/
theorem table_serves_on_x86 (node : Addr → Locked.Node) (user : Task → UserMem) (n : ℕ)
    (hn : n ≤ 129) (xs ys : List Action) (s m : State)
    (hxs : Run step (CpusWithoutWaits n) (doeventInit node user) xs s)
    (hidle : ∀ t, s.pc t = .user) (hlisted : (s.node allevents).next ≠ allevents)
    (hys : Run step (OnCpus n) s ys m) (horderly : Orderly ys) (hdone : ∀ t, m.pc t = .user) :
    ∃ R R', s.HasTable R ∧ m.HasTable R' ∧
      Linearizable TableCall (R, s.user) (observe step callEvents s ys) (R', m.user) := by
  obtain ⟨c, q, hrest, hlist, hown, hne, hlin, hmem, hring, huser⟩ :=
    serial_from_rest hn hxs hidle hlisted hys horderly hdone
  have hstart : Resting c := ⟨hlist, hown, hrest.pc, fun hnil => hne (List.map_eq_nil_iff.mp hnil)⟩
  have htable := hlin.map (fun q => (q.registry, q.user)) Resting
    (fun _ a => sharesList a.2.kind = true) hstart
    (fun t a ha => horderly.callIn _ (call_of_invoke ha)) fun q t a b q' hq hk hcall => hq.call hk hcall
  rw [hrest.user, huser] at htable
  exact ⟨c.registry, q.registry, hrest.hasTable,
    ⟨q.eventlist, hring, by rw [DoEvent.State.registry, hmem]⟩, htable⟩

theorem table_serves_on_x86_contended :
    ∃ s m R R', Run step (CpusWithoutWaits 8) boot Locked.openedRun s ∧
      Run step (OnCpus 8) s infoAfterOpen m ∧ s.HasTable R ∧ m.HasTable R' ∧
      Linearizable TableCall (R, s.user) (observe step callEvents s infoAfterOpen) (R', m.user) := by
  obtain ⟨s, m, hxs, hidle, hlisted, hys, hdone⟩ := infoAfterOpen_runs
  obtain ⟨R, R', hR, hR', hlin⟩ := table_serves_on_x86 _ _ 8 (by decide) Locked.openedRun
    infoAfterOpen s m hxs hidle hlisted hys (.inl (by decide)) hdone
  exact ⟨s, m, R, R', hxs, hys, hR, hR', hlin⟩

end DoEvent.X86
