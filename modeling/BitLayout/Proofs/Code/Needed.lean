import BitLayout.Proofs.Code.Halves
import BitLayout.Proofs.Code.Inlining
import BitLayout.Proofs.Strict.Code

/-!
# BitLayout.Proofs.Code.Needed

The records that functions are made for. They are found by going on, again and again, to a record
that is called for and not done yet; what its function calls for is called for then.

* `Program.Worklist`: what is called for and done on the way, kept by every step;
* `Program.nodup_recordsNeeded`: functions are made for each record once;
* `Program.mem_recordsNeeded`: they are made for the records that sectors call for, and for those
  that these functions call for, and for no others;
* `recordsMovedAll_bareAll`: reading and saving call for the same records.
-/

namespace BitLayout

/-! ## both directions -/

mutual

theorem recordsMovedAll_bare : (s : Statement) →
    Program.recordsMovedAll s.bare = Program.recordsMoved s
  | .move m => by cases m <;> rfl
  | .wire _ _ _ body => (List.append_nil _).trans (recordsMovedAll_bareAll body)
  | .loop l body => by
    rw [Statement.bare, Program.recordsMoved, ← recordsMovedAll_bareAll body]
    cases bareAll body with
    | nil => rfl
    | cons x xs => exact List.append_nil _
  | .choice arms => (List.append_nil _).trans (recordsMovedByArms_bareArms arms)

/-- **Calls without defaults**: defaults call for no records. -/
theorem recordsMovedAll_bareAll : (xs : List Statement) →
    Program.recordsMovedAll (bareAll xs) = Program.recordsMovedAll xs
  | [] => rfl
  | x :: xs => by
    rw [bareAll, Program.recordsMovedAll_append, recordsMovedAll_bare x,
      recordsMovedAll_bareAll xs, Program.recordsMovedAll]

theorem recordsMovedByArms_bareArms : (arms : List Arm) →
    Program.recordsMovedByArms (bareArms arms) = Program.recordsMovedByArms arms
  | [] => rfl
  | .mk _ _ body :: arms => congrArg₂ (· ++ ·) (recordsMovedAll_bareAll body)
      (recordsMovedByArms_bareArms arms)

end

/-- Both halves call for the same records. -/
theorem Halves.recordsMovedAll {read save : List Statement} (h : Halves read save) :
    Program.recordsMovedAll save = Program.recordsMovedAll read := by
  rw [← h.bare, recordsMovedAll_bareAll]

namespace Program

section

variable {c : Config} {m : Model} {sectors : List Sector} {start called done : List String}
  {record : String}

/-- Functions of a record call for the same records in both directions. -/
theorem recordsMovedAll_recordStatements (c : Config) (m : Model) (dir : Direction)
    (record : String) : recordsMovedAll (recordStatements c m dir record) =
      recordsMovedAll (recordStatements c m .read record) := by
  cases dir with
  | read => rfl
  | save => exact (Transfer.halves_fields c.structFunctions 0 (m.membersOf record) recordPlace
      0).recordsMovedAll

/-- Code for a sector calls for the same records in both directions. -/
theorem recordsMovedAll_sectorStatements (c : Config) (dir : Direction) (s : Sector) :
    recordsMovedAll (sectorStatements c dir s) = recordsMovedAll (sectorStatements c .read s) := by
  cases dir with
  | read => rfl
  | save => exact (Items.halves c.structFunctions _ 0 s.items).recordsMovedAll

/-! ## going on from record to record -/

/-- What is called for is what is called for at the start, and by what is done. All that is done was
called for, and is done once. -/
structure Worklist (c : Config) (m : Model) (start called done : List String) : Prop where
  nodup : done.Nodup
  found : ∀ record ∈ done, record ∈ called
  called_iff : ∀ name, name ∈ called ↔
    name ∈ start ∨ ∃ record ∈ done, name ∈ recordsMovedAll (recordStatements c m .read record)

namespace Worklist

theorem initial (c : Config) (m : Model) (names : List String) : Worklist c m names names [] where
  nodup := List.nodup_nil
  found _ h := nomatch h
  called_iff name := by simp

/-- **A step**: a record that is called for and not done yet is done. -/
theorem next (h : Worklist c m start called done)
    (hnext : leastName? (called.filter (!done.contains ·)) = some record) :
    Worklist c m start (called ++ recordsMovedAll (recordStatements c m .read record))
      (done ++ [record]) := by
  obtain ⟨hmem, hnew⟩ := List.mem_filter.1 (Strict.mem_of_leastName hnext)
  have hrecord : record ∉ done := by simpa using hnew
  constructor
  · rw [← List.concat_eq_append, List.nodup_concat]
    exact ⟨hrecord, h.nodup⟩
  · intro name hname
    rcases List.mem_append.1 hname with hname | hname
    · exact List.mem_append_left _ (h.found name hname)
    · obtain rfl := List.mem_singleton.1 hname
      exact List.mem_append_left _ hmem
  · intro name
    simp only [List.mem_append, h.called_iff, List.mem_singleton, or_and_right, exists_or,
      exists_eq_left, or_assoc]

/-- If there is nothing to go on to, all that is called for is done. -/
theorem complete (hnone : leastName? (called.filter (!done.contains ·)) = none) :
    ∀ name ∈ called, name ∈ done := by
  intro name hname
  by_contra hnew
  have hmem : name ∈ called.filter (!done.contains ·) :=
    List.mem_filter.2 ⟨hname, by simpa using hnew⟩
  cases hfilter : called.filter (!done.contains ·) with
  | nil =>
    rw [hfilter] at hmem
    cases hmem
  | cons first rest =>
    rw [hfilter, leastName?] at hnone
    split at hnone <;> cases hnone

/-- **A run**: going on keeps what is known about the way, and in the end all that is called for is
done if the budget allows for as many records as are known. -/
theorem run (h : Worklist c m start called done) (budget : Nat) :
    ∃ called', Worklist c m start called' (recordsNeededWithin c m budget called done) ∧
      ((∀ name ∈ called', (m.records.lookup name).isSome) →
        m.records.length ≤ budget + done.length →
        ∀ name ∈ called', name ∈ recordsNeededWithin c m budget called done) := by
  induction budget generalizing called done with
  | zero =>
    refine ⟨called, h, fun hknown hbudget => ?_⟩
    rw [recordsNeededWithin]
    cases hnext : leastName? (called.filter (!done.contains ·)) with
    | none => exact complete hnext
    | some record =>
      -- One more record would be done than are known.
      obtain ⟨hdone, hnodup⟩ := Strict.known_of_next hknown
        (fun name hname => hknown name (h.found name hname)) h.nodup hnext
      have hle := Strict.length_le_of_known hnodup hdone
      rw [List.length_append, List.length_singleton] at hle
      omega
  | succ budget ih =>
    rw [recordsNeededWithin]
    cases hnext : leastName? (called.filter (!done.contains ·)) with
    | none => exact ⟨called, h, fun _ _ => complete hnext⟩
    | some record =>
      obtain ⟨called', hrest, hall⟩ := ih (h.next hnext)
      refine ⟨called', hrest, fun hknown hbudget => hall hknown ?_⟩
      rw [List.length_append, List.length_singleton]
      omega

end Worklist

/-- **Once each**: functions are made for different records. -/
theorem nodup_recordsNeeded (c : Config) (m : Model) (sectors : List Sector) :
    (recordsNeeded c m sectors).Nodup := by
  obtain ⟨_, h, -⟩ := (Worklist.initial c m _).run m.records.length
  exact h.nodup

/-- **Needed records**: functions are made for what the sectors call for, for what these functions
call for, and for nothing else. -/
theorem mem_recordsNeeded {g : Registry} (hbuild : Model.build c g = some m)
    (herrors : m.errors = []) (h : ∀ s ∈ sectors, ∀ i ∈ s.items, i.Grounded m.roots)
    (name : String) : name ∈ recordsNeeded c m sectors ↔
      name ∈ (sectors.flatMap fun s => recordsMovedAll (sectorStatements c .read s)) ∨
      ∃ record ∈ recordsNeeded c m sectors,
        name ∈ recordsMovedAll (recordStatements c m .read record) := by
  have hm := Model.sound_of_build hbuild herrors
  obtain ⟨-, hneeded⟩ := Strict.recordsNeeded_eq hbuild herrors h
  obtain ⟨called, hrun, hall⟩ := (Worklist.initial c m (sectors.flatMap fun s =>
    recordsMovedAll (sectorStatements c .read s))).run m.records.length
  have hknown : ∀ name ∈ called, (m.records.lookup name).isSome := by
    intro name hname
    rcases (hrun.called_iff name).1 hname with hname | ⟨record, hrecord, hname⟩
    · obtain ⟨s, hs, hname⟩ := List.mem_flatMap.1 hname
      refine Calls.items (fun i hi => Calls.item (g := g) fun p hp => ?_) _ _ name hname
      exact ((h s hs i hi).walks p hp).everywhere hm.roots
    · exact (Strict.recordStatements_eq hbuild herrors (hneeded record hrecord) .read).2 name hname
  rw [← recordsNeeded] at hrun hall
  rw [← hrun.called_iff]
  exact ⟨hrun.found name, hall hknown (Nat.le_add_right ..) name⟩

/-- Without calls no functions are made. -/
theorem recordsNeeded_of_plain (c : Config) (m : Model)
    (h : ∀ s ∈ sectors, recordsMovedAll (sectorStatements c .read s) = []) :
    recordsNeeded c m sectors = [] := by
  rw [recordsNeeded, List.flatMap_eq_nil_iff.2 h]
  cases m.records.length <;> rfl

end

end Program

end BitLayout
