import GraceOS.Lib.BPlusTree.Links
import GraceOS.Lib.BPlusTree.Pages

namespace bplus

open List

variable {A K V C : Type} [LinearOrder K]

/-- The list without the entries of a key. -/
def without (key : K) (entries : List (K × V)) : List (K × V) :=
  entries.filter fun entry => entry.1 ≠ key

/-- Removal of a key from its leaf, which may become empty. -/
def Tree.erase (key : K) : {l : Nat} → Tree A K V l → Tree A K V l
  | 0, (t : Leaf A K V) => ({ t with entries := without key t.entries } : Leaf A K V)
  | _ + 1, (t : Inner A K (Tree A K V _)) => t.replace key ((target key t.first t.rest).erase key)

section Without

variable {key : K} {entries : List (K × V)}

theorem mem_without {entry : K × V} : entry ∈ without key entries ↔ entry ∈ entries ∧ entry.1 ≠ key := by
  simp [without]

theorem without_sorted (hsorted : Sorted entries) : Sorted (without key entries) :=
  hsorted.filter _

theorem without_eq_self (h : ∀ entry ∈ entries, entry.1 ≠ key) : without key entries = entries :=
  List.filter_eq_self.mpr fun entry hentry => by simpa using h entry hentry

theorem without_append (before after : List (K × V)) :
    without key (before ++ after) = without key before ++ without key after :=
  filter_append before after

theorem lookup_without (query : K) :
    (without key entries).lookup query = if query = key then none else entries.lookup query := by
  induction entries with
  | nil => simp [without]
  | cons entry entries ih =>
    unfold without at ih ⊢
    by_cases hkey : entry.1 = key
    · rw [filter_cons_of_neg (by simpa using hkey), ih, lookup_cons_ite]
      split
      · rfl
      · rename_i hquery
        rw [if_neg fun h => hquery (h.trans hkey)]
    · rw [filter_cons_of_pos (by simpa using hkey), lookup_cons_ite, lookup_cons_ite, ih]
      split
      · rename_i hquery
        rw [if_neg fun h => hkey (hquery.symm.trans h)]
      · rfl

/-- In an ascending list the entry of a key is the only one to go. -/
theorem without_eq_eraseIdx (hsorted : Sorted entries) {i : Nat} (hi : i < entries.length)
    (hkey : entries[i].1 = key) : without key entries = entries.eraseIdx i := by
  induction entries generalizing i with
  | nil => exact absurd hi (by simp)
  | cons head entries ih =>
    obtain ⟨hhead, htail⟩ := List.pairwise_cons.mp hsorted
    cases i with
    | zero =>
      obtain rfl : head.1 = key := hkey
      rw [without, filter_cons_of_neg (by simp), eraseIdx_cons_zero]
      exact without_eq_self fun entry hentry => ne_of_gt (hhead entry hentry)
    | succ i =>
      have hi' : i < entries.length := by simpa using hi
      have hkey' : entries[i].1 = key := by simpa using hkey
      have hlt : head.1 < key := by
        rw [← hkey']
        exact hhead _ (getElem_mem hi')
      rw [without, filter_cons_of_pos (by simpa using ne_of_lt hlt), eraseIdx_cons_succ]
      exact congrArg _ (ih htail hi' hkey')

end Without

namespace Tree

variable {l : Nat} {key : K}

@[simp] theorem erase_addr (t : Tree A K V l) : (t.erase key).addr = t.addr := by
  cases l <;> rfl

@[simp] theorem erase_linked (t : Tree A K V l) : (t.erase key).linked = t.linked := by
  cases l <;> rfl

@[simp] theorem erase_pages (t : Tree A K V l) : (t.erase key).pages = t.pages := by
  induction l with
  | zero => rfl
  | succ l ih =>
    obtain ⟨before, after, hold, hnew⟩ := gather_graft Tree.pages key (Inner.first t) (Inner.rest t)
    have hgather := hnew ((target key (Inner.first t) (Inner.rest t)).erase key, [])
    rw [gather_nil, ih, ← hold] at hgather
    exact congrArg (Inner.addr t :: ·) hgather

theorem erase_fill {leafCap innerCap : Nat} {t : Tree A K V l} (h : t.Fill leafCap innerCap) :
    (t.erase key).Fill leafCap innerCap := by
  induction l with
  | zero => exact (length_filter_le _ _).trans h
  | succ l ih =>
    obtain ⟨hone, hcap, hbelow⟩ := h
    have hlength := graft_length key ((target key (Inner.first t) (Inner.rest t)).erase key, [])
      (Inner.first t) (Inner.rest t)
    rw [length_nil, Nat.zero_add] at hlength
    refine ⟨?_, ?_, hbelow.graft key _ ⟨ih (hbelow.target key), by simp⟩⟩
    · change 1 ≤ (graft key _ _ _).2.length
      rw [hlength]
      exact hone
    · change (graft key _ _ _).2.length ≤ innerCap
      rw [hlength]
      exact hcap

theorem leafFor_mem_pages (key : K) (t : Tree A K V l) : (t.leafFor key).addr ∈ t.pages := by
  induction l with
  | zero => exact t.addr_mem_pages
  | succ l ih => exact mem_cons_of_mem _ (mem_gather_of_target (ih _))

theorem Fill.leafFor {leafCap innerCap : Nat} {t : Tree A K V l} (h : t.Fill leafCap innerCap) (key : K) :
    (t.leafFor key).entries.length ≤ leafCap := by
  induction l with
  | zero => exact h
  | succ l ih => exact ih (Every.target h.2.2 key)

theorem Bounded.erase {range : Set K} {t : Tree A K V l} (h : t.Bounded range) (hkey : key ∈ range) :
    (t.erase key).Bounded range := by
  induction l generalizing range with
  | zero => exact ⟨without_sorted h.1, fun entry hentry => h.2 entry (mem_without.mp hentry).1⟩
  | succ l ih =>
    obtain ⟨sub, _, hkeySub, htarget, hone, _⟩ := Within.focus (widens_bounded l) h hkey
    exact hone _ (ih htarget hkeySub)

/-- Removal takes the key out of the contents, and nothing else. -/
theorem Bounded.erase_entries {range : Set K} {t : Tree A K V l} (h : t.Bounded range) (hkey : key ∈ range) :
    (t.erase key).entries = without key t.entries := by
  induction l generalizing range with
  | zero => simp [Tree.entries, Tree.chunks, Tree.erase]
  | succ l ih =>
    obtain ⟨sub, _, hkeySub, htarget, _, _⟩ := Within.focus (widens_bounded l) h hkey
    obtain ⟨before, after, hold, hnew, hbefore, hafter⟩ := Within.chunks_focus h key
    have hchunks : (Tree.erase key t).chunks =
        before ++ ((target key (Inner.first t) (Inner.rest t)).erase key).chunks ++ after :=
      (hnew (_, [])).trans (by rw [gather_nil])
    change _ = without key ((gather Tree.chunks _ _).flatMap Chunk.entries)
    rw [entries, hold, hchunks, flatMap_append, flatMap_append, flatMap_append, flatMap_append,
      without_append, without_append, without_eq_self fun entry hentry => ne_of_lt (hbefore entry hentry),
      without_eq_self fun entry hentry => ne_of_gt (hafter entry hentry)]
    exact congrArg (fun middle => _ ++ middle ++ _) (ih htarget hkeySub)

theorem Attached.erase {t : Tree A K V l} (h : t.Attached) : (t.erase key).Attached := by
  induction l with
  | zero => trivial
  | succ l ih =>
    have htarget := Every.target h key
    exact Every.graft h key (_, []) ⟨⟨(erase_linked _).trans htarget.1, ih htarget.2⟩, by simp⟩

/-- Removal does not move the leaves or change where they lead. -/
theorem erase_links (t : Tree A K V l) :
    (t.erase key).chunks.map (fun chunk => (chunk.addr, chunk.next)) =
      t.chunks.map fun chunk => (chunk.addr, chunk.next) := by
  induction l with
  | zero => rfl
  | succ l ih =>
    obtain ⟨before, after, hold, hnew⟩ := gather_graft Tree.chunks key (Inner.first t) (Inner.rest t)
    have hgather := hnew ((target key (Inner.first t) (Inner.rest t)).erase key, [])
    rw [gather_nil] at hgather
    change List.map _ (gather _ _ _) = List.map _ (gather _ _ _)
    rw [hold]
    refine (congrArg (List.map _) hgather).trans ?_
    rw [map_append, map_append, map_append, map_append, ih]

end Tree

omit [LinearOrder K] in
/-- A chain is a matter of where the leaves are and where they lead. -/
theorem Chained.congr {stop : A} {chunks chunks' : List (Chunk A K V)} (h : Chained stop chunks)
    (hlinks : chunks'.map (fun chunk => (chunk.addr, chunk.next)) = chunks.map fun chunk => (chunk.addr, chunk.next)) :
    Chained stop chunks' := by
  induction chunks generalizing chunks' with
  | nil =>
    rw [map_nil, map_eq_nil_iff] at hlinks
    rw [hlinks]
    trivial
  | cons chunk rest ih =>
    obtain ⟨chunk', rest', rfl, hchunk, hrest⟩ := List.map_eq_cons_iff.mp hlinks
    refine ⟨?_, ih h.2 hrest⟩
    have hhead : headAddr stop rest' = headAddr stop rest := by
      cases rest with
      | nil => rw [List.map_eq_nil_iff.mp hrest]
      | cons next rest =>
        obtain ⟨next', rest'', rfl, hnext, -⟩ := List.map_eq_cons_iff.mp hrest
        exact congrArg Prod.fst hnext
    exact (congrArg Prod.snd hchunk).trans (h.1.trans hhead.symm)

end bplus
