import GraceOS.Bfs.ReadBack
import Mathlib.Data.Set.BooleanAlgebra
import Mathlib.Order.CompletePartialOrder

namespace graceos.bfs

open bplus

/-- The operations on files. -/
inductive Op where
  | create (name : FileName) (size : UInt64)
  | write_file (name : FileName) (buffer : Nat → UInt8) (size : UInt64)
  | delete (name : FileName)

namespace Op

def name : Op → FileName
  | .create name _ => name
  | .write_file name _ _ => name
  | .delete name => name

/-- The size an operation asks for. -/
def size : Op → Nat
  | .create _ size => size.toNat
  | .write_file _ _ size => size.toNat
  | .delete _ => 0

end Op

namespace Bfs

def step (s : Bfs) : Op → Option (Int × Bfs)
  | .create name size => s.bfs_create name size
  | .write_file name buffer size => s.bfs_write_file name buffer size
  | .delete name => s.bfs_delete name

/-- A history: operations one after the other, whatever they return. -/
def run (s : Bfs) : List Op → Option Bfs
  | [] => some s
  | op :: ops => do
    let (_, s) ← s.step op
    s.run ops

/-- The pages a walk from the root of the tree can come to. -/
inductive TreePage (s : Bfs) : UInt64 → Prop where
  | root : TreePage s s.root.root_page
  | child {page : UInt64} {i : Nat} (hpage : TreePage s page) (hlevel : 0 < (s.node page).level)
      (hi : i ≤ (s.node page).count.toNat) : TreePage s ((s.node page).value i)

/-- The pages on the way of a search. -/
inductive OnPath (s : Bfs) (key : UInt64) : UInt64 → Prop where
  | root : OnPath s key s.root.root_page
  | child {page : UInt64} (hpage : OnPath s key page) (hlevel : 0 < (s.node page).level) :
      OnPath s key (search_child (s.node page) key)

end Bfs

section Walk

variable {s : Bfs}

/-- The children that a page of a tree names are pages of the tree. -/
theorem Bfs.Holds.child_mem {l : Nat} {par : UInt64} {t : Node l} (h : s.Holds par t) {page : UInt64}
    (hpage : page ∈ t.pages) (hlevel : 0 < (s.node page).level) {i : Nat} (hi : i ≤ (s.node page).count.toNat) :
    (s.node page).value i ∈ t.pages := by
  induction l generalizing par with
  | zero =>
    obtain rfl : page = (Leaf.toChunk t).addr := List.mem_singleton.mp hpage
    rw [h.1] at hlevel
    exact absurd hlevel (by decide)
  | succ l ih =>
    obtain ⟨_, _, hfirst, hrest, hchildren⟩ := h
    rw [Tree.pages_inner] at hpage ⊢
    rcases List.mem_cons.mp hpage with rfl | hbelow
    · have hvalue := (s.node (Inner.addr t)).value_at hi
      rw [hfirst, hrest, List.map_map] at hvalue
      have hmem := List.mem_of_getElem? hvalue
      refine List.mem_cons_of_mem _ (mem_gather.mpr ?_)
      rcases List.mem_cons.mp hmem with heq | hin
      · rw [heq]
        exact .inl (Tree.addr_mem_pages _)
      · obtain ⟨pair, hpair, heq⟩ := List.mem_map.mp hin
        rw [← heq]
        exact .inr ⟨pair, hpair, Tree.addr_mem_pages _⟩
    · refine List.mem_cons_of_mem _ (mem_gather.mpr ?_)
      rcases mem_gather.mp hbelow with hin | ⟨pair, hpair, hin⟩
      · exact .inl (ih hchildren.1 hin)
      · exact .inr ⟨pair, hpair, ih (hchildren.2 pair hpair) hin⟩

theorem Image.treePage_mem {σ : Space} {t : BTree} (h : Image s σ t) {page : UInt64} (hpage : s.TreePage page) :
    page ∈ t.2.pages := by
  induction hpage with
  | root =>
    rw [h.root_page]
    exact t.2.addr_mem_pages
  | child _ hlevel hi ih => exact h.holds.child_mem ih hlevel hi

/-- The back links on a path are set when the parent fields of its pages are. -/
theorem Bfs.Holds.pathLinked {l : Nat} {par key : UInt64} {t : Node l} (h : s.Holds par t)
    (hnodup : t.pages.Nodup) (hpath : s.OnPath key t.addr) (hroot : s.root.root_page ∉ t.pages.tail)
    (hparents : ∀ page, s.OnPath key page → page ≠ s.root.root_page → (s.node page).parent ≠ 0) :
    t.PathLinked key := by
  induction l generalizing par with
  | zero => trivial
  | succ l ih =>
    obtain ⟨hlevel, _, hfirst, hrest, hchildren⟩ := h
    have htarget := Every.target hchildren key
    have hpositive : 0 < (s.node (Inner.addr t)).level := by
      rw [UInt16.lt_iff_toNat_lt, hlevel]
      exact Nat.succ_pos l
    have hnext : s.OnPath key (target key (Inner.first t) (Inner.rest t)).addr := by
      rw [← search_child_target hfirst hrest]
      exact .child hpath hpositive
    rw [Tree.pages_inner] at hnodup hroot
    have hbelow : s.root.root_page ∉ (target key (Inner.first t) (Inner.rest t)).pages :=
      fun hin => hroot (mem_gather_of_target hin)
    have hnodup' : (target key (Inner.first t) (Inner.rest t)).pages.Nodup := by
      obtain ⟨before, after, hold, _⟩ := gather_graft Tree.pages key (Inner.first t) (Inner.rest t)
      have hall := (List.nodup_cons.mp hnodup).2
      rw [hold] at hall
      exact (List.nodup_append.mp (List.nodup_append.mp hall).1).2.1
    refine ⟨?_, ih htarget hnodup' hnext (fun hin => hbelow (List.mem_of_mem_tail hin))⟩
    have hparent := hparents _ hnext fun heq => hbelow (heq ▸ Tree.addr_mem_pages _)
    rw [htarget.parent] at hparent
    cases hlinked : (target key (Inner.first t) (Inner.rest t)).linked with
    | true => rfl
    | false =>
      rw [hlinked] at hparent
      exact absurd rfl hparent

theorem Image.pathLinked {σ : Space} {t : BTree} (h : Image s σ t) {key : UInt64}
    (hparents : ∀ page, s.OnPath key page → page ≠ s.root.root_page → (s.node page).parent ≠ 0) :
    t.2.PathLinked key := by
  have hroot := h.root_page
  refine h.holds.pathLinked h.nodup (hroot ▸ .root) ?_ hparents
  have hnodup := h.nodup
  obtain ⟨l, t⟩ := t
  rw [hroot]
  cases l with
  | zero => exact List.not_mem_nil
  | succ l => exact (List.nodup_cons.mp hnodup).1

end Walk

/-- A volume whose counters add up to the whole disk, and which has handed out
exactly the pages from page 3 to the next free one, each once. -/
structure Accounted (s : Bfs) (σ : Space) (t : BTree) : Prop extends Volume s σ t where
  total : σ.next.toNat + σ.free.toNat = s.root.total_pages.toNat
  small : s.root.total_pages.toNat < 2 ^ 32
  log : s.handed_out = (List.range' 3 (σ.next.toNat - 3)).map UInt64.ofNat

section Format

variable {s₀ s : Bfs} {behind : Fin 64 → UInt8}

theorem format_spec (hformat : s₀.bfs_format behind = (0, s)) :
    s.root = Bfs.formatted_root (s₀.disk_size / UInt64.ofNat BFS_PAGE_SIZE) ∧
      s.node 1 = { Page.zero with magic := BFS_MAGIC } ∧ s.handed_out = [] := by
  unfold Bfs.bfs_format at hformat
  split at hformat
  · cases (Prod.mk.inj hformat).1
  · obtain rfl := (Prod.mk.inj hformat).2
    refine ⟨rfl, ?_, rfl⟩
    have htable := fun (s : Bfs) (b : Block) => (s.raw_write_touches BFS_NAME_TABLE_PAGE b
      (by decide : (2 : UInt64).toNat < 2 ^ 52)).node_eq (by decide : (1 : UInt64).toNat < 2 ^ 52) (by decide)
    exact (htable _ _).trans (Bfs.node_write _ 1 _)

/-- What `bfs_format` leaves: an empty leaf on page 1, and all pages from page 3
on free. -/
theorem format_accounted (hformat : s₀.bfs_format behind = (0, s))
    (hlow : 3 ≤ (s₀.disk_size / UInt64.ofNat BFS_PAGE_SIZE).toNat)
    (hhigh : (s₀.disk_size / UInt64.ofNat BFS_PAGE_SIZE).toNat < 2 ^ 32) : ∃ σ, Accounted s σ empty_tree := by
  obtain ⟨hroot, hnode, hlog⟩ := format_spec hformat
  generalize s₀.disk_size / UInt64.ofNat BFS_PAGE_SIZE = pages at hlow hhigh hroot
  have hfree : (pages - 3).toNat = pages.toNat - 3 :=
    UInt64.toNat_sub_of_le _ _ (UInt64.le_iff_toNat_le.mpr hlow)
  have hsum : 3 + (pages - 3).toNat = pages.toNat := by omega
  have hpages : ∀ b ∈ empty_tree.2.pages, b ≠ 0 ∧ b.toNat < 3 :=
    forall_mem_of_all (by decide)
  have hcheck : empty_tree.2.check none none = true := by decide
  have hholds : s.Holds 0 empty_tree.2 := by
    change (s.node 1).level = 0 ∧ (s.node 1).parent = 0 ∧ (s.node 1).next = 0 ∧ (s.node 1).entries = []
    rw [hnode]
    exact ⟨rfl, rfl, rfl, rfl⟩
  refine ⟨⟨3, pages - 3, by decide, by change 3 + _ ≤ 2 ^ 52; omega⟩, ⟨⟨⟨?_, ?_, hholds, rfl,
    Tree.bounded_of_check hcheck, by decide, by decide, hpages, ?_⟩, le_refl 3, forall_mem_of_all (by decide),
    fun entry hentry => absurd hentry List.not_mem_nil⟩, ?_, ?_, hlog⟩⟩
  · rw [Bfs.Has, hroot]
    exact ⟨rfl, rfl⟩
  · rw [hroot]
    rfl
  · rw [hroot]
    exact le_of_eq hsum
  · rw [hroot]
    exact hsum
  · rw [hroot]
    exact hhigh

end Format

section Run

variable {s : Bfs} {σ : Space} {t : BTree}

/-- One operation, with a size that can be rounded up to blocks. -/
theorem Accounted.step (h : Accounted s σ t) {op : Op} (hsize : op.size + 4095 < 2 ^ 64) :
    ∃ code s' σ' t', s.step op = some (code, s') ∧ Accounted s' σ' t' ∧
      FileStep (bfs_hash op.name) s s' σ σ' t t' code := by
  have htotal := h.total
  have hsmall := h.small
  have hnext : σ.next.toNat < 2 ^ 32 := by omega
  -- The counters and the record follow from what every operation promises.
  have hkeep : ∀ {code : Int} {s' : Bfs} {σ' : Space} {t' : BTree},
      FileStep (bfs_hash op.name) s s' σ σ' t t' code → Accounted s' σ' t' := by
    intro code s' σ' t' hstep
    have hlater := hstep.moves.later
    have hpages := hstep.moves.touches.total_pages
    have hstart := h.start
    have hle := hlater.next_le
    have hsum := hlater.total
    refine ⟨hstep.volume, by rw [hpages]; omega, by rw [hpages]; exact hsmall, ?_⟩
    have hsplit : σ'.next.toNat - 3 = σ.next.toNat - 3 + (σ'.next.toNat - σ.next.toNat) := by omega
    have hmid : 3 + (σ.next.toNat - 3) = σ.next.toNat := by omega
    rw [hstep.moves.handed_out, h.log, Space.taken, ← List.map_append, hsplit, ← List.range'_append_1, hmid]
  cases op with
  | create name size =>
    obtain ⟨code, s', σ', t', hrun, hstep, _⟩ := h.create hnext hsize name
    exact ⟨code, s', σ', t', hrun, hkeep hstep, hstep⟩
  | write_file name buffer size =>
    obtain ⟨code, s', σ', t', hrun, hstep, _⟩ := h.write_file hnext hsize name buffer
    exact ⟨code, s', σ', t', hrun, hkeep hstep, hstep⟩
  | delete name =>
    obtain ⟨code, s', t', hrun, hstep⟩ := h.delete name
    exact ⟨code, s', σ, t', hrun, hkeep hstep, hstep⟩

theorem Accounted.run (h : Accounted s σ t) {ops : List Op} (hsizes : ∀ op ∈ ops, op.size + 4095 < 2 ^ 64) :
    ∃ s' σ' t', s.run ops = some s' ∧ Accounted s' σ' t' := by
  induction ops generalizing s σ t with
  | nil => exact ⟨s, σ, t, rfl, h⟩
  | cons op ops ih =>
    obtain ⟨code, s', σ', t', hstep, haccounted, _⟩ := h.step (hsizes op List.mem_cons_self)
    obtain ⟨s'', σ'', t'', hrun, haccounted'⟩ := ih haccounted fun op hop => hsizes op (List.mem_cons_of_mem _ hop)
    refine ⟨s'', σ'', t'', ?_, haccounted'⟩
    rw [Bfs.run, hstep]
    exact hrun

theorem Accounted.log_nodup (h : Accounted s σ t) : s.handed_out.Nodup := by
  rw [h.log]
  refine List.Nodup.map_on (fun x hx y hy heq => ?_) List.nodup_range'
  have hbound := σ.bound
  have hxlt := List.mem_range'_1.mp hx
  have hylt := List.mem_range'_1.mp hy
  have heq' := congrArg UInt64.toNat heq
  rw [UInt64.toNat_ofNat', UInt64.toNat_ofNat', Nat.mod_eq_of_lt (by omega), Nat.mod_eq_of_lt (by omega)] at heq'
  exact heq'

theorem Accounted.log_range (h : Accounted s σ t) {page : UInt64} (hpage : page ∈ s.handed_out) :
    3 ≤ page.toNat ∧ page.toNat < s.root.total_pages.toNat := by
  rw [h.log] at hpage
  obtain ⟨n, hn, rfl⟩ := List.mem_map.mp hpage
  have hbound := σ.bound
  have hrange := List.mem_range'_1.mp hn
  have hstart := h.start
  have htotal := h.total
  rw [UInt64.toNat_ofNat', Nat.mod_eq_of_lt (by omega)]
  omega

theorem Volume.search_owns (h : Volume s σ t) {key : UInt64} {r : SearchResult} (hsearch : s.bfs_search key = some r)
    (hfound : r.found = true) : (key, r.value) ∈ t.2.entries := by
  have hanswer := h.search_answer key
  rw [hsearch, Option.map_some, SearchResult.answer, if_pos hfound, Option.some.injEq] at hanswer
  exact Volume.mem_of_lookup hanswer.symm

end Run

/-- Space accounting over all histories from `bfs_format` on: the counters add up
to the disk, no page is handed out twice or outside the disk, and the blocks of
the files lie apart from each other and from the tree. -/
theorem run_accounts_space {s₀ s : Bfs} {behind : Fin 64 → UInt8} (hformat : s₀.bfs_format behind = (0, s))
    (hlow : 3 ≤ (s₀.disk_size / UInt64.ofNat BFS_PAGE_SIZE).toNat)
    (hhigh : (s₀.disk_size / UInt64.ofNat BFS_PAGE_SIZE).toNat < 2 ^ 32) {ops : List Op}
    (hsizes : ∀ op ∈ ops, op.size < 2 ^ 32) :
    ∃ s', s.run ops = some s' ∧
      s'.root.next_free.toNat + s'.root.free_pages.toNat = s'.root.total_pages.toNat ∧ s'.handed_out.Nodup ∧
      (∀ page ∈ s'.handed_out, 3 ≤ page.toNat ∧ page.toNat < s'.root.total_pages.toNat) ∧
      ∀ key r, s'.bfs_search key = some r → r.found = true →
        (∀ page, s'.TreePage page → page ∉ extent r.value) ∧
        ∀ key' r', s'.bfs_search key' = some r' → r'.found = true → key' ≠ key →
          Disjoint (extent r.value) (extent r'.value) := by
  obtain ⟨σ, hempty⟩ := format_accounted hformat hlow hhigh
  obtain ⟨s', σ', t', hrun, h⟩ := hempty.run fun op hop => by have := hsizes op hop; omega
  refine ⟨s', hrun, by rw [h.has.1, h.has.2]; exact h.total, h.log_nodup, fun page => h.log_range,
    fun key r hsearch hfound => ?_⟩
  have howned := h.owned _ (h.search_owns hsearch hfound)
  refine ⟨fun page hpage hin => (howned page hin).2.2.1 (h.treePage_mem hpage),
    fun key' r' hsearch' hfound' hne => Set.disjoint_left.mpr fun b hb hb' => ?_⟩
  exact (howned b hb).2.2.2 _ (h.search_owns hsearch' hfound') hne hb'

/-- A disk of eight pages with nothing on it. -/
def blank_disk : Bfs where
  root := Bfs.formatted_root 0
  disk_size := 8 * 4096
  ram_base := 4096
  ram := fun _ _ => 0
  name_table_enabled := false
  handed_out := []

def fresh_disk : Bfs := (blank_disk.bfs_format fun _ => 0).2

theorem fresh_disk_accounted : ∃ σ, Accounted fresh_disk σ empty_tree :=
  format_accounted (show blank_disk.bfs_format (fun _ => 0) = (0, fresh_disk) from rfl) (by decide) (by decide)

/-- Creating and deleting a file of two blocks on the small disk. -/
theorem fresh_disk_accounts : ∃ s', fresh_disk.run [.create name_a 5000, .delete name_a, .create name_a 90000] =
    some s' ∧ s'.root.next_free.toNat + s'.root.free_pages.toNat = s'.root.total_pages.toNat := by
  have hformat : blank_disk.bfs_format (fun _ => 0) = (0, fresh_disk) := rfl
  have hsizes : ∀ op ∈ [Op.create name_a 5000, .delete name_a, .create name_a 90000], op.size < 2 ^ 32 := by
    simp [Op.size]
  obtain ⟨s', hrun, hsum, _⟩ := run_accounts_space hformat (by decide) (by decide) hsizes
  exact ⟨s', hrun, hsum⟩

/-- The states of a disk after its format. -/
def Bfs.Reachable (s : Bfs) : Prop :=
  ∃ (s₀ s₁ : Bfs) (behind : Fin 64 → UInt8) (ops : List Op), s₀.bfs_format behind = (0, s₁) ∧
    3 ≤ (s₀.disk_size / UInt64.ofNat BFS_PAGE_SIZE).toNat ∧
    (s₀.disk_size / UInt64.ofNat BFS_PAGE_SIZE).toNat < 2 ^ 32 ∧
    (∀ op ∈ ops, op.size + 4095 < 2 ^ 64) ∧ s₁.run ops = some s

theorem Bfs.Reachable.accounted {s : Bfs} (h : s.Reachable) : ∃ σ t, Accounted s σ t := by
  obtain ⟨s₀, s₁, behind, ops, hformat, hlow, hhigh, hsizes, hrun⟩ := h
  obtain ⟨σ, hempty⟩ := format_accounted hformat hlow hhigh
  obtain ⟨s', σ', t', hrun', haccounted⟩ := hempty.run hsizes
  obtain rfl := Option.some.inj (hrun.symm.trans hrun')
  exact ⟨σ', t', haccounted⟩

theorem fresh_disk_reachable : fresh_disk.Reachable :=
  ⟨blank_disk, fresh_disk, fun _ => 0, [], rfl, by decide, by decide, by simp, rfl⟩

end graceos.bfs
