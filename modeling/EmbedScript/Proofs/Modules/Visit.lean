import EmbedScript.Exec

/-!
Visits to modules that import each other. A module is known from the moment its code begins, so a
cycle of imports ends.
-/

namespace EmbedScript

open List

namespace Milestone

def begun? : Milestone → Option String
  | begins path => some path
  | ends _ => none

def ended? : Milestone → Option String
  | begins _ => none
  | ends path => some path

def begun (events : List Milestone) : List String := events.filterMap begun?

def ended (events : List Milestone) : List String := events.filterMap ended?

variable (path : String) (events others : List Milestone)

@[simp] theorem begun_begins : begun (begins path :: events) = path :: begun events := rfl

@[simp] theorem begun_ends : begun (ends path :: events) = begun events := rfl

@[simp] theorem ended_ends : ended (ends path :: events) = path :: ended events := rfl

@[simp] theorem begun_append : begun (events ++ others) = begun events ++ begun others := filterMap_append

@[simp] theorem ended_append : ended (events ++ others) = ended events ++ ended others := filterMap_append

theorem begun_entered : begun (events ++ [begins path]) = begun events ++ [path] := begun_append ..

theorem ended_entered : ended (events ++ [begins path]) = ended events := by
  rw [ended_append]
  exact append_nil _

theorem count_begins : events.count (begins path) = (begun events).count path := by
  induction events with
  | nil => rfl
  | cons event events ih =>
    cases event with
    | begins other =>
      rw [begun_begins,count_cons,count_cons,ih]
      simp
    | ends other =>
      rw [count_cons,ih]
      simp

theorem mem_ended : path ∈ ended events ↔ ends path ∈ events := by
  rw [ended,mem_filterMap]
  constructor
  · rintro ⟨event,mem,found⟩
    cases event with
    | begins other => contradiction
    | ends other =>
      cases found
      exact mem
  · intro mem
    exact ⟨ends path,mem,rfl⟩

end Milestone

open Milestone

inductive Reaches (imports : String → List String) (known : List String) : String → String → Prop
  | here {p} (new : p ∉ known) : Reaches imports known p p
  | step {p q r} (before : Reaches imports known p q) (imported : r ∈ imports q) (new : r ∉ known) :
      Reaches imports known p r

namespace Reaches

theorem weaken (fewer : ∀ q ∈ known, q ∈ more) (reached : Reaches imports more p q) :
    Reaches imports known p q := by
  induction reached with
  | here new => exact .here fun old => new (fewer _ old)
  | step _ imported new ih => exact .step ih imported fun old => new (fewer _ old)

theorem from_import (new : p ∉ known) (imported : q ∈ imports p) (reached : Reaches imports known q r) :
    Reaches imports known p r := by
  induction reached with
  | here fresh => exact .step (.here new) imported fresh
  | step _ later fresh ih => exact .step ih later fresh

end Reaches

structure Visit (imports : String → List String) (known roots : List String)
    (events : List Milestone) (fresh : List String) : Prop where
  begunOnce : (begun events).Nodup
  endedOnce : (ended events).Nodup
  began : ∀ q ∈ ended events, q ∈ begun events
  new : ∀ q ∈ begun events, q ∉ known
  reached : ∀ q ∈ begun events, ∃ p ∈ roots, Reaches imports known p q
  cached : fresh.Perm (ended events)

namespace Visit

structure Completes (imports : String → List String) (known roots : List String)
    (events : List Milestone) (fresh : List String) : Prop
    extends Visit imports known roots events fresh where
  finished : ∀ q ∈ begun events, q ∈ fresh
  closed : ∀ q ∈ begun events, ∀ i ∈ imports q, i ∈ fresh ++ known
  arrived : ∀ p ∈ roots, p ∈ fresh ++ known

structure Fails (imports : String → List String) (sound : String → Prop) (known roots : List String)
    (events : List Milestone) (fresh : List String) : Prop
    extends Visit imports known roots events fresh where
  blamed : ∃ p ∈ roots, ∃ q, Reaches imports known p q ∧ ¬ sound q

theorem begun_of_fresh (visit : Visit imports known roots events fresh) (mem : q ∈ fresh) : q ∈ begun events :=
  visit.began q (visit.cached.mem_iff.mp mem)

theorem nil : Visit imports known roots [] [] where
  begunOnce := .nil
  endedOnce := .nil
  began _ mem := nomatch mem
  new _ mem := nomatch mem
  reached _ mem := nomatch mem
  cached := .nil

section

variable (first : Completes imports known roots events fresh)

include first

theorem Completes.visit (second : Visit imports (fresh ++ known) others later newer) :
    Visit imports known (roots ++ others) (later ++ events) (newer ++ fresh) where
  begunOnce := by
    rw [begun_append,nodup_append]
    refine ⟨second.begunOnce,first.begunOnce,?_⟩
    rintro q after q' before rfl
    exact second.new q after (mem_append_left _ (first.finished q before))
  endedOnce := by
    rw [ended_append,nodup_append]
    refine ⟨second.endedOnce,first.endedOnce,?_⟩
    rintro q after q' before rfl
    have old := first.cached.mem_iff.mpr before
    exact second.new q (second.began q after) (mem_append_left _ old)
  began q mem := by
    rw [ended_append,mem_append] at mem
    rw [begun_append,mem_append]
    exact mem.imp (second.began q) (first.began q)
  new q mem := by
    rw [begun_append,mem_append] at mem
    rcases mem with after | before
    · exact fun old => second.new q after (mem_append_right _ old)
    · exact first.new q before
  reached q mem := by
    rw [begun_append,mem_append] at mem
    rcases mem with after | before
    · obtain ⟨p,root,reached⟩ := second.reached q after
      exact ⟨p,mem_append_right _ root,reached.weaken fun _ => mem_append_right _⟩
    · obtain ⟨p,root,reached⟩ := first.reached q before
      exact ⟨p,mem_append_left _ root,reached⟩
  cached := by
    rw [ended_append]
    exact second.cached.append first.cached

theorem Completes.completes (second : Completes imports (fresh ++ known) others later newer) :
    Completes imports known (roots ++ others) (later ++ events) (newer ++ fresh) where
  toVisit := first.visit second.toVisit
  finished q mem := by
    rw [begun_append,mem_append] at mem
    rw [mem_append]
    exact mem.imp (second.finished q) (first.finished q)
  closed q mem i imported := by
    rw [begun_append,mem_append] at mem
    rw [append_assoc]
    rcases mem with after | before
    · exact second.closed q after i imported
    · exact mem_append_right _ (first.closed q before i imported)
  arrived p root := by
    rw [append_assoc]
    rcases mem_append.mp root with before | after
    · exact mem_append_right _ (first.arrived p before)
    · exact second.arrived p after

theorem Completes.fails (second : Fails imports sound (fresh ++ known) others later newer) :
    Fails imports sound known (roots ++ others) (later ++ events) (newer ++ fresh) := by
  obtain ⟨p,root,q,reached,unsound⟩ := second.blamed
  exact ⟨first.visit second.toVisit,p,mem_append_right _ root,q,reached.weaken fun _ => mem_append_right _,unsound⟩

end

theorem Fails.append (failed : Fails imports sound known roots events fresh) :
    Fails imports sound known (roots ++ others) events fresh := by
  obtain ⟨p,root,blamed⟩ := failed.blamed
  refine ⟨{ failed.toVisit with reached := fun q mem => ?_ },p,mem_append_left _ root,blamed⟩
  obtain ⟨p,root,reached⟩ := failed.reached q mem
  exact ⟨p,mem_append_left _ root,reached⟩

theorem completes_known (old : ∀ p ∈ roots, p ∈ known) : Completes imports known roots [] [] where
  toVisit := nil
  finished _ mem := nomatch mem
  closed _ mem := nomatch mem
  arrived := old

theorem reached_through (visit : Visit imports (p :: known) (imports p) events fresh)
    (new : p ∉ known) (mem : q ∈ begun events) : Reaches imports known p q := by
  obtain ⟨i,imported,reached⟩ := visit.reached q mem
  exact .from_import new imported (reached.weaken fun _ => mem_cons_of_mem p)

theorem enter (visit : Visit imports (p :: known) (imports p) events fresh) (new : p ∉ known) :
    Visit imports known [p] (events ++ [.begins p]) fresh where
  begunOnce := by
    rw [begun_entered,nodup_append]
    refine ⟨visit.begunOnce,pairwise_singleton ..,?_⟩
    rintro q mem q' here rfl
    exact visit.new q mem (mem_cons.mpr (.inl (mem_singleton.mp here)))
  endedOnce := by
    rw [ended_entered]
    exact visit.endedOnce
  began q mem := by
    rw [ended_entered] at mem
    rw [begun_entered]
    exact mem_append_left _ (visit.began q mem)
  new q mem := by
    rw [begun_entered,mem_append,mem_singleton] at mem
    rcases mem with inside | rfl
    · exact fun old => visit.new q inside (.tail _ old)
    · exact new
  reached q mem := by
    rw [begun_entered,mem_append,mem_singleton] at mem
    refine ⟨p,mem_singleton.mpr rfl,?_⟩
    rcases mem with inside | rfl
    · exact visit.reached_through new inside
    · exact .here new
  cached := by
    rw [ended_entered]
    exact visit.cached

theorem Completes.enter (body : Completes imports (p :: known) (imports p) events fresh) (new : p ∉ known) :
    Completes imports known [p] (.ends p :: (events ++ [.begins p])) (fresh ++ [p]) := by
  have entered := body.toVisit.enter new
  have pending : p ∉ ended events := fun mem => body.new p (body.began p mem) (.head _)
  have same : fresh ++ [p] ++ known = fresh ++ p :: known := by simp
  refine { entered with endedOnce := ?_, began := ?_, cached := ?_, finished := ?_, closed := ?_, arrived := ?_ }
  · rw [ended_ends,ended_entered]
    exact nodup_cons.mpr ⟨pending,body.endedOnce⟩
  · rw [ended_ends,ended_entered,begun_ends,begun_entered]
    intro q mem
    rcases mem_cons.mp mem with rfl | inside
    · exact mem_append_right _ (mem_singleton.mpr rfl)
    · exact mem_append_left _ (body.began q inside)
  · rw [ended_ends,ended_entered]
    exact perm_append_comm.trans (body.cached.cons p)
  · rw [begun_ends,begun_entered]
    intro q mem
    rw [mem_append] at mem ⊢
    exact mem.imp_left (body.finished q)
  · rw [begun_ends,begun_entered,same]
    intro q mem i imported
    rcases mem_append.mp mem with inside | here
    · exact body.closed q inside i imported
    · rw [mem_singleton.mp here] at imported
      exact body.arrived i imported
  · rw [same]
    intro p' root
    rw [mem_singleton.mp root]
    exact mem_append_right _ (.head _)

theorem Fails.enter (body : Fails imports sound (p :: known) (imports p) events fresh)
    (new : p ∉ known) : Fails imports sound known [p] (events ++ [.begins p]) fresh := by
  obtain ⟨i,imported,q,reached,unsound⟩ := body.blamed
  exact ⟨body.toVisit.enter new,p,mem_singleton.mpr rfl,q,
    .from_import new imported (reached.weaken fun _ => mem_cons_of_mem p),unsound⟩

theorem Completes.begun_iff (visit : Completes imports known [p] events fresh) :
    q ∈ begun events ↔ Reaches imports known p q := by
  have found : ∀ {r}, r ∈ fresh ++ known → r ∉ known → r ∈ begun events := by
    intro r mem new
    rcases mem_append.mp mem with here | old
    · exact visit.begun_of_fresh here
    · contradiction
  constructor
  · intro mem
    obtain ⟨p',root,reached⟩ := visit.reached q mem
    rwa [mem_singleton.mp root] at reached
  · intro reached
    induction reached with
    | here new => exact found (visit.arrived _ (mem_singleton.mpr rfl)) new
    | step _ imported new ih => exact found (visit.closed _ ih _ imported) new

end Visit

end EmbedScript
