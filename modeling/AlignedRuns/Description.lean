import AlignedRuns.Allocator
set_option autoImplicit false

namespace AlignedRuns

def IndexMap.describe (layout : Layout) (m : IndexMap) : String :=
  layout.list (m.toList.map fun (offset, len) =>
    layout.record "Piece" [("offset", toString offset), ("len", toString len)])

def FreeLists.describe (layout : Layout) (s : FreeLists) : String :=
  let inhabited := s.lists.zipIdx.filter fun (pieces, _) => !pieces.isEmpty
  layout.table (inhabited.map fun (pieces, c) => (toString c, pieces.describe layout))

def Allocator.describe (layout : Layout) (a : Allocator) : String :=
  layout.record "Power2Allocator"
    [("max_size", toString a.maxSize), ("total_size", toString a.totalSize),
      ("free", a.free.describe layout), ("used", a.inUse.describe layout)]

end AlignedRuns
