import ConcurrentKV.Transition
import Mathlib.Data.Set.Insert

/-! Threads that run programs of lock operations, the discipline of a program as a triple of the
locks held before and after it, and the freedom from deadlock that follows when every wait is for
something above all that is held. -/
namespace LockProgram
open Transition

inductive Instr (L W : Type*) where
  /-- Locks taken all at once, each exclusively or shared. -/
  | acquire (locks : List (L × Bool))
  | release (lock : L)
  /-- A wait on a condition variable with this mutex, for an event. -/
  | wait (event : W) (mutex : L)
  | asleep (event : W)

/-- A thread. `handler` is what follows an exception, when all locks are released. -/
structure Thread (L W : Type*) where
  todo : List (Instr L W) := []
  handler : List (Instr L W) := []
  held : List (L × Bool) := []

inductive Label (P : Type*) where
  /-- A thread that has nothing to do begins a program. -/
  | start (t : ℕ) (program : P)
  | step (t : ℕ)
  /-- The condition of a wait does not hold. -/
  | sleep (t : ℕ)
  | throw (t : ℕ)

variable {L W P : Type*}

/-- Nobody holds the lock in a way that excludes this one. -/
def Available (threads : List (Thread L W)) (l : L × Bool) : Prop :=
  ∀ u ∈ threads, ∀ h ∈ u.held, h.1 = l.1 → h.2 = false ∧ l.2 = false

instance [DecidableEq L] (threads : List (Thread L W)) (l : L × Bool) :
    Decidable (Available threads l) :=
  inferInstanceAs (Decidable (∀ u ∈ threads, ∀ h ∈ u.held, h.1 = l.1 → h.2 = false ∧ l.2 = false))

namespace Thread

variable (u : Thread L W)

/-- The next instruction. A waiter may be woken at any time. -/
def advance [DecidableEq L] (threads : List (Thread L W)) : Option (Thread L W) :=
  match u.todo with
  | [] => none
  | .acquire locks :: rest =>
    if ∀ l ∈ locks, Available threads l then some { u with todo := rest, held := locks ++ u.held }
    else none
  | .release lock :: rest => some { u with
      todo := rest
      held := u.held.filter fun h => h.1 ≠ lock }
  | .wait _ _ :: rest | .asleep _ :: rest => some { u with todo := rest }

/-- The mutex of a wait is given up until the waiter wakes. -/
def sleep : Option (Thread L W) :=
  match u.todo with
  | .wait event mutex :: rest => some { u with
      todo := .release mutex :: .asleep event :: .acquire [(mutex,true)] ::
        .wait event mutex :: rest }
  | _ => none

/-- An exception releases all locks. -/
def throw : Option (Thread L W) :=
  if u.todo.isEmpty then none
  else some { u with
    todo := (u.held.map fun h => .release h.1) ++ u.handler
    handler := [] }

end Thread

/-- A step of one thread. `load` gives the program of a name, and `mayRun` who may run it. -/
def step [DecidableEq L] (load : P → List (Instr L W) × List (Instr L W)) (mayRun : ℕ → P → Bool)
    (threads : List (Thread L W)) : Label P → Option (List (Thread L W))
  | .start t program => threads[t]?.bind fun u =>
      if u.todo.isEmpty ∧ mayRun t program then
        some (threads.set t ⟨(load program).1, (load program).2, u.held⟩)
      else none
  | .step t => threads[t]?.bind fun u => (u.advance threads).map (threads.set t)
  | .sleep t => threads[t]?.bind fun u => u.sleep.map (threads.set t)
  | .throw t => threads[t]?.bind fun u => u.throw.map (threads.set t)

/-! ### Discipline -/

variable {Ordered : Set (L × Bool) → Instr L W → Prop} {H K M : Set (L × Bool)}
  {p q rest : List (Instr L W)} {l : L}

/-- The program starts with the locks `H`, ends with the locks `K`, and waits only where `Ordered`
allows it. -/
inductive Runs (Ordered : Set (L × Bool) → Instr L W → Prop) :
    Set (L × Bool) → List (Instr L W) → Set (L × Bool) → Prop where
  | nil {H : Set (L × Bool)} : Runs Ordered H [] H
  | acquire {H K : Set (L × Bool)} {locks : List (L × Bool)} {rest : List (Instr L W)}
      (hord : Ordered H (.acquire locks)) (hrest : Runs Ordered ({h | h ∈ locks} ∪ H) rest K) :
      Runs Ordered H (.acquire locks :: rest) K
  | release {H K : Set (L × Bool)} {lock : L} {rest : List (Instr L W)}
      (hrest : Runs Ordered {h ∈ H | h.1 ≠ lock} rest K) : Runs Ordered H (.release lock :: rest) K
  | wait {H K : Set (L × Bool)} {event : W} {mutex : L} {rest : List (Instr L W)}
      (hheld : {(mutex,true)} ∪ {h ∈ H | h.1 ≠ mutex} = H)
      (hsleep : Ordered {h ∈ H | h.1 ≠ mutex} (.asleep event))
      (hord : Ordered {h ∈ H | h.1 ≠ mutex} (.acquire [(mutex,true)]))
      (hrest : Runs Ordered H rest K) : Runs Ordered H (.wait event mutex :: rest) K
  | asleep {H K : Set (L × Bool)} {event : W} {rest : List (Instr L W)}
      (hord : Ordered H (.asleep event)) (hrest : Runs Ordered H rest K) :
      Runs Ordered H (.asleep event :: rest) K

namespace Runs

theorem append (hp : Runs Ordered H p K) (hq : Runs Ordered K q M) :
    Runs Ordered H (p ++ q) M := by
  induction hp with
  | nil => exact hq
  | acquire hord _ ih => exact .acquire hord (ih hq)
  | release _ ih => exact .release (ih hq)
  | wait hheld hsleep hord _ ih => exact .wait hheld hsleep hord (ih hq)
  | asleep hord _ ih => exact .asleep hord (ih hq)

theorem ordered_acquire {locks : List (L × Bool)}
    (h : Runs Ordered H (.acquire locks :: rest) K) : Ordered H (.acquire locks) := by
  cases h with
  | acquire hord => exact hord

theorem ordered_asleep {event : W} (h : Runs Ordered H (.asleep event :: rest) K) :
    Ordered H (.asleep event) := by
  cases h with
  | asleep hord => exact hord

/-- One lock is taken. -/
theorem take {x : Bool} (hord : Ordered H (.acquire [(l,x)])) :
    Runs Ordered H [.acquire [(l,x)]] (insert (l,x) H) := by
  refine .acquire hord ?_
  have hset : {h | h ∈ [(l,x)]} ∪ H = insert (l,x) H := by
    ext h
    simp
  rw [hset]
  exact .nil

/-- One lock is given up. -/
theorem drop {x : Bool} (hl : ∀ h ∈ H, h.1 ≠ l) :
    Runs Ordered (insert (l,x) H) [.release l] H := by
  refine .release ?_
  have hset : {h ∈ insert (l,x) H | h.1 ≠ l} = H := by
    ext h
    constructor
    · rintro ⟨rfl | hh, hne⟩
      · exact absurd rfl hne
      · exact hh
    · exact fun hh => ⟨.inr hh, hl h hh⟩
  rw [hset]
  exact .nil

/-- Releasing every lock of a list. -/
theorem releases (locks : List L) :
    Runs Ordered H (locks.map .release) {h ∈ H | h.1 ∉ locks} := by
  induction locks generalizing H with
  | nil =>
    have hset : {h ∈ H | h.1 ∉ ([] : List L)} = H := by simp
    rw [hset]
    exact .nil
  | cons l locks ih =>
    refine .release ?_
    have hset : {h ∈ H | h.1 ∉ l :: locks} = {h ∈ {h ∈ H | h.1 ≠ l} | h.1 ∉ locks} := by
      ext h
      simp [and_assoc]
    rw [hset]
    exact ih

end Runs

/-! ### Threads that keep the discipline -/

/-- What a disciplined thread still has to do, and what it does when it is interrupted. -/
def Thread.Disciplined (Ordered : Set (L × Bool) → Instr L W → Prop) (u : Thread L W) : Prop :=
  Runs Ordered {h | h ∈ u.held} u.todo ∅ ∧ Runs Ordered ∅ u.handler ∅

variable {threads : List (Thread L W)} {u v : Thread L W}

namespace Thread.Disciplined

theorem advance [DecidableEq L] (h : u.Disciplined Ordered) (hv : u.advance threads = some v) :
    v.Disciplined Ordered := by
  obtain ⟨todo,handler,held⟩ := u
  obtain ⟨htodo,hhandler⟩ := h
  dsimp only at htodo hhandler
  generalize hH : {h | h ∈ held} = H at htodo
  generalize hE : (∅ : Set (L × Bool)) = E at htodo
  cases htodo with
  | nil => cases hv
  | @acquire _ _ locks rest hord hrest =>
    subst hE
    simp only [Thread.advance] at hv
    split at hv
    · obtain rfl := Option.some.inj hv
      refine ⟨?_, hhandler⟩
      have hset : {h | h ∈ locks ++ held} = {h | h ∈ locks} ∪ H := by
        subst hH
        ext h
        simp
      exact hset ▸ hrest
    · cases hv
  | @release _ _ lock rest hrest =>
    subst hE
    obtain rfl := Option.some.inj hv
    refine ⟨?_, hhandler⟩
    have hset : {h | h ∈ held.filter fun h => h.1 ≠ lock} = {h ∈ H | h.1 ≠ lock} := by
      subst hH
      ext h
      simp
    exact hset ▸ hrest
  | wait hheld hsleep hord hrest =>
    subst hE
    obtain rfl := Option.some.inj hv
    exact ⟨hH ▸ hrest, hhandler⟩
  | asleep hord hrest =>
    subst hE
    obtain rfl := Option.some.inj hv
    exact ⟨hH ▸ hrest, hhandler⟩

theorem sleep (h : u.Disciplined Ordered) (hv : u.sleep = some v) : v.Disciplined Ordered := by
  obtain ⟨todo,handler,held⟩ := u
  obtain ⟨htodo,hhandler⟩ := h
  dsimp only at htodo hhandler
  generalize hH : {h | h ∈ held} = H at htodo
  generalize hE : (∅ : Set (L × Bool)) = E at htodo
  cases htodo with
  | wait hheld hsleep hord hrest =>
    subst hE
    obtain rfl := Option.some.inj hv
    refine ⟨hH ▸ .release (.asleep hsleep (.acquire hord ?_)), hhandler⟩
    have hset (m : L) (S : Set (L × Bool)) : {h | h ∈ [(m,true)]} ∪ S = {(m,true)} ∪ S := by
      ext h
      simp
    rw [hset, hheld]
    exact .wait hheld hsleep hord hrest
  | _ => cases hv

theorem throw (h : u.Disciplined Ordered) (hv : u.throw = some v) : v.Disciplined Ordered := by
  simp only [Thread.throw] at hv
  split at hv
  · cases hv
  · obtain rfl := Option.some.inj hv
    refine ⟨?_, .nil⟩
    have hall : Runs Ordered {h | h ∈ u.held} _ _ := Runs.releases (u.held.map Prod.fst)
    have hset : {h ∈ {h | h ∈ u.held} | h.1 ∉ u.held.map Prod.fst} = (∅ : Set (L × Bool)) := by
      refine Set.eq_empty_of_forall_notMem ?_
      rintro h ⟨hh,hno⟩
      exact hno (List.mem_map_of_mem hh)
    rw [hset, List.map_map] at hall
    exact hall.append h.2

end Thread.Disciplined

/-- All threads keep the discipline, and the locks are held as locks are. -/
structure Sound (Ordered : Set (L × Bool) → Instr L W → Prop) (threads : List (Thread L W)) :
    Prop where
  disciplined : ∀ u ∈ threads, u.Disciplined Ordered
  exclusive : ∀ (t t' : ℕ) (u u' : Thread L W), threads[t]? = some u → threads[t']? = some u' →
    t ≠ t' → ∀ h ∈ u.held, ∀ h' ∈ u'.held, h.1 = h'.1 → h.2 = false ∧ h'.2 = false

namespace Sound

variable {t : ℕ}

/-- A thread keeps locks, gives some up or takes what is available. -/
theorem set (hs : Sound Ordered threads) (ht : threads[t]? = some u) (hv : v.Disciplined Ordered)
    (hheld : ∀ h ∈ v.held, h ∈ u.held ∨ Available threads h) :
    Sound Ordered (threads.set t v) := by
  have hmem : ∀ {j : ℕ} {w : Thread L W}, (threads.set t v)[j]? = some w →
      (j = t ∧ w = v) ∨ (j ≠ t ∧ threads[j]? = some w) := by
    intro j w hj
    by_cases hjt : j = t
    · subst hjt
      rw [List.getElem?_set_self (List.getElem?_eq_some_iff.mp ht).1] at hj
      exact .inl ⟨rfl, (Option.some.inj hj).symm⟩
    · rw [List.getElem?_set_ne (Ne.symm hjt)] at hj
      exact .inr ⟨hjt, hj⟩
  have hothers {j : ℕ} {w : Thread L W} (hjt : j ≠ t) (hj : threads[j]? = some w) :
      ∀ h ∈ w.held, ∀ h' ∈ v.held, h.1 = h'.1 → h.2 = false ∧ h'.2 = false := by
    intro h hh h' hh' heq
    rcases hheld h' hh' with hold | hfree
    · exact hs.exclusive j t w u hj ht hjt h hh h' hold heq
    · exact hfree w (List.mem_of_getElem? hj) h hh heq
  refine ⟨fun w hw => ?_, fun j j' w w' hj hj' hne h hh h' hh' heq => ?_⟩
  · rcases List.mem_or_eq_of_mem_set hw with hw | rfl
    · exact hs.disciplined w hw
    · exact hv
  · rcases hmem hj with ⟨rfl,rfl⟩ | ⟨hjt,hold⟩
    · rcases hmem hj' with ⟨rfl,rfl⟩ | ⟨hjt',hold'⟩
      · exact absurd rfl hne
      · exact (hothers hjt' hold' h' hh' h hh heq.symm).symm
    · rcases hmem hj' with ⟨rfl,rfl⟩ | ⟨-,hold'⟩
      · exact hothers hjt hold h hh h' hh' heq
      · exact hs.exclusive j j' w w' hold hold' hne h hh h' hh' heq

/-- A thread that has nothing to do holds nothing. -/
theorem held_of_idle (hu : u.Disciplined Ordered) (hidle : u.todo.isEmpty = true) :
    u.held = [] := by
  obtain ⟨todo,handler,held⟩ := u
  obtain rfl : todo = [] := List.isEmpty_iff.mp hidle
  obtain ⟨htodo,-⟩ := hu
  dsimp only at htodo ⊢
  generalize hH : {h | h ∈ held} = H at htodo
  generalize hE : (∅ : Set (L × Bool)) = E at htodo
  cases htodo
  refine List.eq_nil_iff_forall_not_mem.mpr fun h hh => ?_
  have hmem : h ∈ {h | h ∈ held} := hh
  rw [hH, ← hE] at hmem
  exact hmem

theorem step [DecidableEq L] {load : P → List (Instr L W) × List (Instr L W)}
    {mayRun : ℕ → P → Bool} {threads' : List (Thread L W)}
    (hload : ∀ program, Runs Ordered ∅ (load program).1 ∅ ∧ Runs Ordered ∅ (load program).2 ∅)
    (hs : Sound Ordered threads) {label : Label P}
    (hstep : step load mayRun threads label = some threads') : Sound Ordered threads' := by
  cases label with
  | start t program =>
    obtain ⟨u,ht,hu⟩ := Option.bind_eq_some_iff.mp hstep
    have hdisc := hs.disciplined u (List.mem_of_getElem? ht)
    split at hu
    · rename_i hguard
      obtain rfl := Option.some.inj hu
      have hnil := held_of_idle hdisc hguard.1
      refine hs.set ht ⟨?_, (hload program).2⟩ fun h hh => .inl hh
      have hset : {h | h ∈ u.held} = (∅ : Set (L × Bool)) := by
        rw [hnil]
        simp
      exact hset ▸ (hload program).1
    · cases hu
  | step t =>
    obtain ⟨u,ht,hu⟩ := Option.bind_eq_some_iff.mp hstep
    obtain ⟨v,hv,rfl⟩ := Option.map_eq_some_iff.mp hu
    refine hs.set ht ((hs.disciplined u (List.mem_of_getElem? ht)).advance hv) ?_
    intro h hh
    simp only [Thread.advance] at hv
    split at hv
    · cases hv
    · split at hv
      · rename_i hav
        obtain rfl := Option.some.inj hv
        rcases List.mem_append.mp hh with hh | hh
        · exact .inr (hav h hh)
        · exact .inl hh
      · cases hv
    · obtain rfl := Option.some.inj hv
      exact .inl (List.mem_filter.mp hh).1
    · obtain rfl := Option.some.inj hv
      exact .inl hh
    · obtain rfl := Option.some.inj hv
      exact .inl hh
  | sleep t =>
    obtain ⟨u,ht,hu⟩ := Option.bind_eq_some_iff.mp hstep
    obtain ⟨v,hv,rfl⟩ := Option.map_eq_some_iff.mp hu
    refine hs.set ht ((hs.disciplined u (List.mem_of_getElem? ht)).sleep hv) fun h hh => .inl ?_
    simp only [Thread.sleep] at hv
    split at hv
    · obtain rfl := Option.some.inj hv
      exact hh
    · cases hv
  | throw t =>
    obtain ⟨u,ht,hu⟩ := Option.bind_eq_some_iff.mp hstep
    obtain ⟨v,hv,rfl⟩ := Option.map_eq_some_iff.mp hu
    refine hs.set ht ((hs.disciplined u (List.mem_of_getElem? ht)).throw hv) fun h hh => .inl ?_
    simp only [Thread.throw] at hv
    split at hv
    · cases hv
    · obtain rfl := Option.some.inj hv
      exact hh

end Sound

/-- Every thread has only instructions of its own kind before it. -/
def Confined (Q : ℕ → Instr L W → Prop) (threads : List (Thread L W)) : Prop :=
  ∀ t u, threads[t]? = some u → ∀ k ∈ u.todo ++ u.handler, Q t k

theorem Confined.step [DecidableEq L] {load : P → List (Instr L W) × List (Instr L W)}
    {mayRun : ℕ → P → Bool} {threads' : List (Thread L W)} {Q : ℕ → Instr L W → Prop}
    (hload : ∀ t program, mayRun t program → ∀ k ∈ (load program).1 ++ (load program).2, Q t k)
    (hrelease : ∀ t lock, Q t (.release lock))
    (hwait : ∀ t event mutex, Q t (.wait event mutex) →
      Q t (.asleep event) ∧ Q t (.acquire [(mutex,true)]))
    (hs : Confined Q threads) {label : Label P}
    (hstep : LockProgram.step load mayRun threads label = some threads') :
    Confined Q threads' := by
  have hset {t : ℕ} {u v : Thread L W} (ht : threads[t]? = some u)
      (hv : ∀ k ∈ v.todo ++ v.handler, Q t k) : Confined Q (threads.set t v) := by
    intro j w hj
    by_cases hjt : j = t
    · subst hjt
      rw [List.getElem?_set_self (List.getElem?_eq_some_iff.mp ht).1] at hj
      exact Option.some.inj hj ▸ hv
    · rw [List.getElem?_set_ne (Ne.symm hjt)] at hj
      exact hs j w hj
  cases label with
  | start t program =>
    obtain ⟨u,ht,hu⟩ := Option.bind_eq_some_iff.mp hstep
    split at hu
    · rename_i hguard
      obtain rfl := Option.some.inj hu
      exact hset ht (hload t program hguard.2)
    · cases hu
  | step t =>
    obtain ⟨u,ht,hu⟩ := Option.bind_eq_some_iff.mp hstep
    obtain ⟨v,hv,rfl⟩ := Option.map_eq_some_iff.mp hu
    have hold := hs t u ht
    refine hset ht fun k hk => ?_
    simp only [Thread.advance] at hv
    split at hv
    · cases hv
    · rename_i htodo
      split at hv
      · obtain rfl := Option.some.inj hv
        exact hold k (by rw [htodo]; exact List.mem_cons_of_mem _ hk)
      · cases hv
    all_goals
      rename_i htodo
      obtain rfl := Option.some.inj hv
      exact hold k (by rw [htodo]; exact List.mem_cons_of_mem _ hk)
  | sleep t =>
    obtain ⟨u,ht,hu⟩ := Option.bind_eq_some_iff.mp hstep
    obtain ⟨v,hv,rfl⟩ := Option.map_eq_some_iff.mp hu
    have hold := hs t u ht
    refine hset ht fun k hk => ?_
    simp only [Thread.sleep] at hv
    split at hv
    · rename_i event mutex rest htodo
      obtain rfl := Option.some.inj hv
      rw [htodo] at hold
      obtain ⟨hasleep,hacquire⟩ := hwait t event mutex (hold _ List.mem_cons_self)
      simp only [List.cons_append, List.mem_cons] at hk
      rcases hk with rfl | rfl | rfl | hk
      · exact hrelease t mutex
      · exact hasleep
      · exact hacquire
      · exact hold k (by simpa using hk)
    · cases hv
  | throw t =>
    obtain ⟨u,ht,hu⟩ := Option.bind_eq_some_iff.mp hstep
    obtain ⟨v,hv,rfl⟩ := Option.map_eq_some_iff.mp hu
    refine hset ht fun k hk => ?_
    simp only [Thread.throw] at hv
    split at hv
    · cases hv
    · obtain rfl := Option.some.inj hv
      simp only [List.append_nil] at hk
      rcases List.mem_append.mp hk with hk | hk
      · obtain ⟨h,-,rfl⟩ := List.mem_map.mp hk
        exact hrelease t h.1
      · exact hs t u ht k (List.mem_append_right _ hk)

/-! ### Deadlock -/

/-- The thread `t` waits for something that `b` has to provide: a lock that `b` holds, a shared
lock that is not given while `b` waits for the exclusive one, or an event of which `b` is in
charge. -/
inductive Blocks (serves : W → ℕ → Prop) (threads : List (Thread L W)) (b t : ℕ) : Prop where
  | holder (u v : Thread L W) (locks : List (L × Bool)) (rest : List (Instr L W))
      (l h : L × Bool) (ht : threads[t]? = some u) (hb : threads[b]? = some v)
      (htodo : u.todo = .acquire locks :: rest) (hl : l ∈ locks) (hh : h ∈ v.held)
      (hlock : h.1 = l.1) (hmode : h.2 = true ∨ l.2 = true)
  | queued (u v : Thread L W) (locks : List (L × Bool)) (rest rest' : List (Instr L W))
      (lock : L) (ht : threads[t]? = some u) (hb : threads[b]? = some v)
      (htodo : u.todo = .acquire locks :: rest) (hl : (lock,false) ∈ locks)
      (hqueued : v.todo = .acquire [(lock,true)] :: rest')
  | event (u : Thread L W) (event : W) (rest : List (Instr L W)) (ht : threads[t]? = some u)
      (htodo : u.todo = .asleep event :: rest) (hserves : serves event b)

/-- Every thread of the set waits for something that one of the set has to provide. -/
def Deadlocked (serves : W → ℕ → Prop) (threads : List (Thread L W)) (D : Set ℕ) : Prop :=
  D.Nonempty ∧ ∀ t ∈ D, ∃ b ∈ D, Blocks serves threads b t

/-- The instruction before which the thread `t` waits. -/
def WaitsAt (threads : List (Thread L W)) (t : ℕ) (k : Instr L W) : Prop :=
  ∃ u rest, threads[t]? = some u ∧ u.todo = k :: rest ∧
    ((∃ locks, k = .acquire locks) ∨ ∃ event, k = .asleep event)

/-- No set of threads is in a deadlock when whoever provides waits further up than whoever waits
for it. -/
theorem not_deadlocked {serves : W → ℕ → Prop} (cost : Instr L W → ℕ) (bound : ℕ)
    (hbound : ∀ k, cost k ≤ bound)
    (hcost : ∀ t b c k k', Blocks serves threads b t → Blocks serves threads c b →
      WaitsAt threads t k → WaitsAt threads b k' → cost k < cost k') (D : Set ℕ) :
    ¬Deadlocked serves threads D := by
  rintro ⟨⟨t₀,ht₀⟩,hD⟩
  have hwaits (t : ℕ) (ht : t ∈ D) : ∃ k, WaitsAt threads t k := by
    obtain ⟨b,-,hb⟩ := hD t ht
    cases hb with
    | holder u v locks rest l h ht _ htodo => exact ⟨_, u, rest, ht, htodo, .inl ⟨locks, rfl⟩⟩
    | queued u v locks rest rest' lock ht _ htodo =>
      exact ⟨_, u, rest, ht, htodo, .inl ⟨locks, rfl⟩⟩
    | event u event rest ht htodo => exact ⟨_, u, rest, ht, htodo, .inr ⟨event, rfl⟩⟩
  -- from each thread of the set the next one waits further up, beyond every bound
  have hclimb (n : ℕ) : ∃ t ∈ D, ∃ k, WaitsAt threads t k ∧ n ≤ cost k := by
    induction n with
    | zero =>
      obtain ⟨k,hk⟩ := hwaits t₀ ht₀
      exact ⟨t₀, ht₀, k, hk, Nat.zero_le _⟩
    | succ n ih =>
      obtain ⟨t,ht,k,hk,hn⟩ := ih
      obtain ⟨b,hb,hblocks⟩ := hD t ht
      obtain ⟨c,-,hcb⟩ := hD b hb
      obtain ⟨k',hk'⟩ := hwaits b hb
      exact ⟨b, hb, k', hk', hn.trans_lt (hcost t b c k k' hblocks hcb hk hk')⟩
  obtain ⟨t,-,k,-,hk⟩ := hclimb (bound+1)
  exact absurd (hbound k) (by omega)

end LockProgram
