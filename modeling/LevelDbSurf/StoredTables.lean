import LevelDbSurf.LoggedEdits

/-!
# What is in the tables alone

A crash takes the memtables with it, so it counts what the tables show without them. The background thread does not look
into memtables, but for the one it flushes: it does the same to a database that has no others (`step_withMemory`). So
what it leaves in tables is what was in them and in the memtable it flushes, but for what a compaction drops, and that
does not show (`Intact.background_tables`).
-/

namespace LevelDbSurf

open Cursors Versions

variable {α : Type} [LinearOrder α]

namespace Database

/-- The database, with only this memtable. -/
def withMemory (db : Database α) (imm : Option (List (InternalKey α × Bytes))) : Database α :=
  { db with mem := [], imm }

section Tables
variable {db db' : Database α} {env : Environment α} {event : DatabaseEvent α}

theorem unflushed_withMemory (db : Database α) (imm : Option (List (InternalKey α × Bytes))) :
    (db.withMemory imm).unflushed = imm.getD [] := List.append_nil _

theorem flushedBy_sublist (db : Database α) (event : DatabaseEvent α) :
    ((db.flushedBy event).getD []).Sublist db.unflushed := by
  cases event with
  | compactMemTable fileSize => exact List.sublist_append_left _ _
  | _ => exact List.nil_sublist _

theorem Intact.withMemory (h : db.Intact) {imm : Option (List (InternalKey α × Bytes))}
    (himm : (imm.getD []).Sublist db.unflushed) : (db.withMemory imm).Intact where
  good :=
    { version := h.good.version
      seek := h.good.seek
      memtables :=
        { order := by
            rw [unflushed_withMemory]
            exact h.good.memtables.order.sublist himm
          bounds := fun x hx => by
            rw [unflushed_withMemory] at hx
            exact h.good.memtables.bounds x (himm.subset hx)
          tables := h.good.memtables.tables
          newer := fun y hy x hx => by
            rw [unflushed_withMemory] at hx
            exact h.good.memtables.newer y hy x (himm.subset hx)
          last := h.good.memtables.last }
      numbers := ⟨h.good.numbers.lt, h.good.numbers.used⟩
      running := fun r hr => (h.good.running r hr).congr rfl rfl (le_refl _) }
  parses := by
    rintro x (hx | hx)
    · have hx' : x ∈ (db.withMemory imm).unflushed := hx
      rw [unflushed_withMemory] at hx'
      exact h.parses x (Or.inl (himm.subset hx'))
    · exact h.parses x (Or.inr hx)
  largest := h.largest
  running := h.running

theorem startCompaction_withMemory (isManual : Bool) (smallestSnapshot : Nat) (c : Compaction α)
    (vset' : VersionSet α) :
    (db.withMemory none).startCompaction env isManual smallestSnapshot c vset' =
      (db.startCompaction env isManual smallestSnapshot c vset').withMemory none := by
  unfold startCompaction
  dsimp only
  cases c.inputs0 with
  | nil => rfl
  | cons f rest =>
    dsimp only
    by_cases hmove : (!isManual && c.isTrivialMove db.vset.options) = true
    · rw [if_pos hmove]
      exact if_pos hmove
    · rw [if_neg hmove]
      exact if_neg hmove

theorem backgroundCompaction_withMemory {isManual : Bool} {smallestSnapshot : Nat}
    {r : Option (Option (Compaction α × VersionSet α))}
    (hstep : db.backgroundCompaction env isManual smallestSnapshot r = some db') :
    (db.withMemory none).backgroundCompaction env isManual smallestSnapshot r = some (db'.withMemory none) := by
  unfold backgroundCompaction at hstep ⊢
  split at hstep
  · rename_i hidle
    rw [if_pos ⟨hidle.1, rfl⟩]
    split at hstep
    · cases hstep
    · cases hstep
      rfl
    · rename_i c vset'
      obtain rfl := Option.some.inj hstep
      exact congrArg some (startCompaction_withMemory isManual smallestSnapshot c vset')
  · cases hstep

/-- **A step of the background thread** does not look at the other memtables. -/
theorem step_withMemory (hwrite : ∀ batch, event ≠ .write batch) (hswitch : event ≠ .switchMemTable)
    (hstep : db.step env event = some db') :
    (db.withMemory (db.flushedBy event)).step env event = some (db'.withMemory none) := by
  cases event with
  | write batch => exact absurd rfl (hwrite batch)
  | switchMemTable => exact absurd rfl hswitch
  | compactMemTable fileSize =>
    change db.compactMemTable env fileSize = some db' at hstep
    change (db.withMemory db.imm).compactMemTable env fileSize = _
    unfold compactMemTable at hstep ⊢
    cases himm : db.imm with
    | none =>
      rw [himm] at hstep
      cases hstep
    | some imm =>
      rw [himm] at hstep
      dsimp only [Database.withMemory] at hstep ⊢
      split at hstep
      · rename_i hlt
        cases hstep
        exact if_pos hlt
      · cases hstep
  | chargeSeek level f =>
    change db.chargeSeek level f = some db' at hstep
    change (db.withMemory none).chargeSeek level f = _
    unfold chargeSeek at hstep ⊢
    dsimp only [Database.withMemory] at hstep ⊢
    split at hstep
    · rename_i hif
      cases hstep
      exact if_pos hif
    · cases hstep
  | pickCompaction smallestSnapshot => exact backgroundCompaction_withMemory hstep
  | compactRange level begin_ end_ smallestSnapshot => exact backgroundCompaction_withMemory hstep
  | workOn =>
    change db.workOn = some db' at hstep
    change (db.withMemory none).workOn = _
    unfold workOn at hstep ⊢
    cases hr : db.running with
    | none =>
      rw [hr] at hstep
      cases hstep
    | some r =>
      rw [hr] at hstep
      dsimp only [Database.withMemory] at hstep ⊢
      rw [hr]
      dsimp only at hstep ⊢
      cases hinput : r.input with
      | nil =>
        rw [hinput] at hstep
        cases hstep
      | cons x input =>
        rw [hinput] at hstep
        dsimp only at hstep ⊢
        split at hstep
        · rename_i hlt
          cases hstep
          exact if_pos hlt
        · cases hstep
  | installCompaction =>
    change db.installCompaction env = some db' at hstep
    change (db.withMemory none).installCompaction env = _
    unfold installCompaction at hstep ⊢
    cases hr : db.running with
    | none =>
      rw [hr] at hstep
      cases hstep
    | some r =>
      rw [hr] at hstep
      dsimp only [Database.withMemory] at hstep ⊢
      rw [hr]
      dsimp only at hstep ⊢
      cases hinput : r.input with
      | nil =>
        rw [hinput] at hstep
        cases hstep
        rfl
      | cons x input =>
        rw [hinput] at hstep
        cases hstep
  | cleanupCompaction =>
    change db.cleanupCompaction = some db' at hstep
    change (db.withMemory none).cleanupCompaction = _
    unfold cleanupCompaction at hstep ⊢
    dsimp only [Database.withMemory] at hstep ⊢
    split at hstep
    · rename_i hif
      cases hstep
      exact if_pos hif
    · cases hstep

/-- **What is in tables** after a step of the background thread. -/
theorem Intact.background_tables (h : db.Intact) (hclear : db.Clear event)
    (hss : ∀ s ∈ event.smallestSnapshot, s < kMaxSequenceNumber) (hwrite : ∀ batch, event ≠ .write batch)
    (hswitch : event ≠ .switchMemTable) (hstep : db.step env event = some db') :
    ∃ s₀, Thinned s₀ (versionsOf {y | y ∈ (db.flushedBy event).getD [] ∨ db.InTables y})
      (versionsOf {y | db'.InTables y}) := by
  have hclear' : (db.withMemory (db.flushedBy event)).Clear event := by
    cases event <;> exact hclear
  obtain ⟨-, hstepOf⟩ := (h.withMemory (db.flushedBy_sublist event)).step hclear' hss
    (step_withMemory hwrite hswitch hstep)
  have hbefore : (db.withMemory (db.flushedBy event)).sources.entries =
      {y | y ∈ (db.flushedBy event).getD [] ∨ db.InTables y} := by
    unfold sources Sources.entries
    rw [unflushed_withMemory]
    rfl
  have hafter : (db'.withMemory none).sources.entries = {y | db'.InTables y} := by
    ext y
    exact ⟨fun hy => hy.resolve_left (List.not_mem_nil), Or.inr⟩
  have hsame : (db'.withMemory none).sources.entries = (db.withMemory (db.flushedBy event)).sources.entries →
      ∃ s₀, Thinned s₀ (versionsOf {y | y ∈ (db.flushedBy event).getD [] ∨ db.InTables y})
        (versionsOf {y | db'.InTables y}) := by
    intro heq
    rw [hafter, hbefore] at heq
    rw [heq]
    exact ⟨0, fun _ hx => hx, fun _ hx hnot => absurd hx hnot⟩
  have hentries := hstepOf.entries
  cases event with
  | write batch => exact absurd rfl (hwrite batch)
  | switchMemTable => exact absurd rfl hswitch
  | installCompaction =>
    obtain ⟨r, -, hthinned⟩ := hentries
    refine ⟨r.job.smallestSnapshot, ?_⟩
    rw [← hbefore, ← hafter]
    exact hthinned
  | _ => exact hsame hentries

end Tables

end Database

end LevelDbSurf
