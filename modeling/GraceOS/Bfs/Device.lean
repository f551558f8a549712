import GraceOS.Bfs.Page

namespace graceos.bfs

/-- `struct bfs_instance` on the memory backend. `ram` is the memory behind
`ram_base`, page by page under its byte offset. `handed_out` is not in the
source: it records the page numbers the two allocators have returned. -/
structure Bfs where
  root : Root
  disk_size : UInt64
  ram_base : UInt64
  ram : UInt64 → Block
  name_table_enabled : Bool
  handed_out : List UInt64

namespace Bfs

def bfs_device_read (s : Bfs) (offset : UInt64) : Block :=
  s.ram offset

def bfs_device_write (s : Bfs) (offset : UInt64) (buffer : Block) : Bfs :=
  { s with ram := Function.update s.ram offset buffer }

def bfs_flush_root (s : Bfs) : Bfs :=
  s.bfs_device_write 0 s.root.encode

/-- Reads a page unless its number lies beyond the disk. -/
def bfs_read_page (s : Bfs) (page_num : UInt64) : Option Block :=
  if s.root.total_pages ≤ page_num then none
  else some (s.bfs_device_read (page_num * UInt64.ofNat BFS_PAGE_SIZE))

def bfs_write_page (s : Bfs) (page_num : UInt64) (page : Block) : Bfs :=
  s.bfs_device_write (page_num * UInt64.ofNat BFS_PAGE_SIZE) page

/-- Reads a page without a check of its number. -/
def bfs_raw_read (s : Bfs) (page_num : UInt64) : Block :=
  s.bfs_device_read (page_num * UInt64.ofNat BFS_PAGE_SIZE)

/-- A page read into a buffer, as the `struct bfs_page` in it. -/
def node (s : Bfs) (page_num : UInt64) : Page :=
  Page.decode (s.bfs_raw_read page_num)

def bfs_raw_write (s : Bfs) (page_num : UInt64) (buf : Block) : Bfs :=
  s.bfs_device_write (page_num * UInt64.ofNat BFS_PAGE_SIZE) buf

/-- What the allocators leave in a fresh page. -/
def fresh_page : Block :=
  Page.encode { Page.zero with magic := BFS_MAGIC }

/-- Returns the number of a fresh page, or 0 when the disk is full. -/
def bfs_alloc_page (s : Bfs) : UInt64 × Bfs :=
  if s.root.free_pages = 0 then (0, s)
  else
    let page_num := s.root.next_free
    let s := { s with root := { s.root with next_free := s.root.next_free + 1
                                            free_pages := s.root.free_pages - 1 } }
    let s := s.bfs_flush_root
    let s := s.bfs_write_page page_num fresh_page
    (page_num, { s with handed_out := s.handed_out ++ [page_num] })

/-- Returns the first of `pages` fresh pages in a row, or 0. -/
def bfs_alloc_pages (s : Bfs) (pages : UInt64) : UInt64 × Bfs :=
  if pages = 0 ∨ s.root.free_pages < pages then (0, s)
  else
    let start_page := s.root.next_free
    let s := { s with root := { s.root with next_free := s.root.next_free + pages
                                            free_pages := s.root.free_pages - pages } }
    let s := s.bfs_flush_root
    let numbers := (List.range pages.toNat).map fun i => start_page + UInt64.ofNat i
    let s := numbers.foldl (fun s page_num => s.bfs_write_page page_num fresh_page) s
    (start_page, { s with handed_out := s.handed_out ++ numbers })

end Bfs

end graceos.bfs
