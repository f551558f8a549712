import GraceOS.Bfs.Room

/-!
# Independent files

Files are told apart by the hash of their names alone.
-/

namespace graceos.bfs

theorem bfs_create_exists {s s' : Bfs} {name : FileName} {size : UInt64}
    (hrun : s.bfs_create name size = some (-1, s')) : ∃ value, s.report (bfs_hash name) = some (true, value) := by
  unfold Bfs.bfs_create at hrun
  unfold Bfs.report
  dsimp only at hrun
  generalize s.bfs_search (bfs_hash name) = search at hrun ⊢
  cases search with
  | none => cases hrun
  | some r =>
    cases hfound : r.found with
    | true => exact ⟨r.value, by simp [hfound]⟩
    | false =>
      simp only [Option.bind_eq_bind, Option.bind_some, hfound, Bool.false_eq_true, if_false] at hrun
      split at hrun
      · cases hrun
      · rename_i start s₁ _
        cases hinsert : s₁.bfs_insert (bfs_hash name) (pack start size) with
        | none => simp [hinsert] at hrun
        | some answer =>
          simp only [hinsert, Option.bind_some] at hrun
          split at hrun <;> cases hrun

/-- Files whose names have different hashes are independent. An operation that
has to insert a new entry needs the parent fields on its way to be set. -/
theorem files_independent {s : Bfs} (h : s.Reachable) {a b : FileName} (hhash : bfs_hash a ≠ bfs_hash b)
    (hparents : s.report (bfs_hash a) = some (false, 0) →
      ∀ page, s.OnPath (bfs_hash a) page → page ≠ s.root.root_page → (s.node page).parent ≠ 0) :
    (∀ op s', op.name = a → op.size + 4095 < 2 ^ 64 → s.step op = some (0, s') →
      s'.bfs_find b = s.bfs_find b ∧ ∀ max_size, s'.bfs_read_file b max_size = s.bfs_read_file b max_size) ∧
    ∀ size s', s.bfs_create a size = some (-1, s') → ∃ value, s.report (bfs_hash a) = some (true, value) := by
  refine ⟨fun op s' hname hsize hrun => ?_, fun size s' hrun => bfs_create_exists hrun⟩
  obtain ⟨σ, t, haccounted⟩ := h.accounted
  obtain ⟨code, s'', σ', t', hrun', _, hstep⟩ := haccounted.step hsize
  obtain ⟨rfl, rfl⟩ := Prod.mk.inj (Option.some.inj (hrun'.symm.trans hrun))
  subst hname
  refine hstep.frame haccounted.toVolume (fun habsent => ?_) (Ne.symm hhash)
  refine haccounted.pathLinked (hparents ?_)
  rw [haccounted.report_eq, habsent]
  rfl

/-- The names "ab" and "bA". -/
def name_ab : FileName := ⟨[97, 98], by decide⟩
def name_bA : FileName := ⟨[98, 65], by decide⟩

theorem ab_written : ∃ s, fresh_disk.bfs_write_file name_ab (fun _ => 7) 1 = some (0, s) ∧ s.Reachable ∧
    Shallow s [bfs_hash name_ab] 4 ∧
    s.bfs_read_file name_ab 1 = some { code := 0, out_size := some 1, data := [7] } := by
  obtain ⟨σ, haccounted⟩ := fresh_disk_accounted
  have hwrites : ∃ s, fresh_disk.bfs_write_file name_ab (fun _ => 7) 1 = some (0, s) ∧
      Shallow s [bfs_hash name_ab] 4 :=
    fresh_disk_shallow.write_file List.not_mem_nil (by decide) (by decide) (by decide) _
  obtain ⟨s, hwrite, hshallow⟩ := hwrites
  refine ⟨s, hwrite, ⟨blank_disk, fresh_disk, fun _ => 0, [.write_file name_ab (fun _ => 7) 1], rfl,
    by decide, by decide,
    fun op hop => ?_, ?_⟩, hshallow, ?_⟩
  · rw [List.mem_singleton.mp hop]
    decide
  · rw [Bfs.run, Bfs.step, hwrite]
    rfl
  · exact (bfs_write_file_read_file haccounted.toVolume trivial (by decide) (by decide) (by decide) hwrite).1 1
      (UInt64.le_refl 1)

/-- Writing "a" does not change the file "ab" that the disk holds. -/
theorem files_independent_ab : ∃ s s', fresh_disk.bfs_write_file name_ab (fun _ => 7) 1 = some (0, s) ∧
    s.bfs_write_file name_a (fun _ => 8) 1 = some (0, s') ∧ s'.bfs_find name_ab = s.bfs_find name_ab ∧
    s'.bfs_read_file name_ab 1 = some { code := 0, out_size := some 1, data := [7] } := by
  obtain ⟨s, hwrite, hs, hshallow, hread⟩ := ab_written
  have hwrites : ∃ s', s.bfs_write_file name_a (fun _ => 8) 1 = some (0, s') ∧
      Shallow s' [bfs_hash name_a, bfs_hash name_ab] 3 :=
    hshallow.write_file (by decide) (by decide) (by decide) (by decide) _
  obtain ⟨s', hwrite', -⟩ := hwrites
  have hindependent := files_independent hs (show bfs_hash name_a ≠ bfs_hash name_ab by decide)
    fun _ page hpage hne => absurd (hshallow.on_path hpage) hne
  obtain ⟨hfind, hread'⟩ := hindependent.1 (.write_file name_a (fun _ => 8) 1) s' rfl (by decide) hwrite'
  exact ⟨s, s', hwrite, hwrite', hfind, (hread' 1).trans hread⟩

/-- Different names with the same hash: "bA" cannot be created when "ab" is the
only file. -/
theorem collision_already_exists : name_ab ≠ name_bA ∧
    ∃ s, fresh_disk.bfs_write_file name_ab (fun _ => 7) 1 = some (0, s) ∧ s.bfs_create name_bA 0 = some (-1, s) := by
  obtain ⟨s, hwrite, -, hshallow, -⟩ := ab_written
  have hsame : bfs_hash name_bA = bfs_hash name_ab := by decide
  refine ⟨fun h => absurd (congrArg FileName.chars h) (by decide), s, hwrite, hshallow.create_again ?_ 0⟩
  rw [hsame]
  exact List.mem_singleton_self _

end graceos.bfs
