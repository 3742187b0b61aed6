import Scale.Proofs.Reading.Depth

namespace Scale.Definitions

open Reader

variable {ι : Type} (defs : Definitions ι Empty)

theorem read_pointer (pointee : Schema ι Empty) : defs.read (.pointer pointee) = defs.read pointee := by
  rw [← readWith_read, Schema.readWith, readWith_read]

theorem read_packed {content : Schema ι Empty} (hbool : content.isBool = true) :
    defs.read (.option content) = takePacked := by
  rw [← readWith_read, Schema.readWith, if_pos hbool]

theorem read_option {content : Schema ι Empty} (hbool : content.isBool = false) :
    defs.read (.option content) = (do
      if ← takeBool then
        return .present (← defs.read content)
      else
        return .absent) := by
  rw [← readWith_read, Schema.readWith, readWith_read, hbool]
  rfl

theorem read_result (success failure : Schema ι Empty) :
    defs.read (.result success failure) = (do
      match ← takeTag 2 with
      | 0 => return .tagged 0 (← defs.read success)
      | _ => return .tagged 1 (← defs.read failure)) := by
  have hread := (defs.readWith_read (.result success failure)).symm
  rw [Schema.readWith, readWith_read, readWith_read] at hread
  exact hread

theorem read_sequence (kind : SequenceKind) (item : Schema ι Empty) :
    defs.read (.sequence kind item) = (do
      let vs ← takeCounted (item.size defs.layout) kind.limit (defs.read item)
      return .list vs) := by
  rw [← readWith_read, Schema.readWith, readWith_read, takeCounted, bind_assoc]

theorem read_set (keys : Keying) (item : Schema ι Empty) :
    defs.read (.set keys item) = (do
      let vs ← takeCounted (item.size defs.layout) maxCount (defs.read item)
      return keys.order.set vs) := by
  rw [← readWith_read, Schema.readWith, readWith_read, takeCounted, bind_assoc]

theorem read_map (keys : Keying) (key value : Schema ι Empty) :
    defs.read (.map keys key value) = (do
      let entries ← takeCounted ((Schema.tuple [key, value]).size defs.layout) maxCount (do
        let k ← defs.read key
        let w ← defs.read value
        return (k, w))
      return keys.order.map entries) := by
  rw [← readWith_read, Schema.readWith, readWith_read, readWith_read, takeCounted, bind_assoc]

theorem read_array (count : Nat) (item : Schema ι Empty) :
    defs.read (.array count item) = (do
      let vs ← readMany count (defs.read item)
      return .list vs) := by
  rw [← readWith_read, Schema.readWith, readWith_read]

theorem read_tuple (items : List (Schema ι Empty)) :
    defs.read (.tuple items) = (do
      let vs ← items.mapM defs.read
      return .list vs) := by
  rw [← readWith_read, Schema.readWith, Schema.readAll_eq_mapM]
  simp only [readWith_read]

/-- Reads a value of the schema at an index. -/
def readAt (fields : List (Schema ι Empty)) (i : Nat) : Reader Value :=
  match fields[i]? with
  | .some field => defs.read field
  | .none => throw .wrongTypeIndex

theorem readNth_read (fields : List (Schema ι Empty)) (i : Nat) :
    Schema.readNth defs.layout (fun name => defs.read (.ref name)) fields i = defs.readAt fields i := by
  rw [Schema.readNth_eq, readAt]
  cases fields[i]? with
  | none => rfl
  | some field => exact defs.readWith_read field

theorem read_record (labels : Labels) (selection : Selection) (fields : List (Schema ι Empty)) :
    defs.read (.record labels selection fields) = (do
      let vs ← selection.order.mapM (defs.readAt fields)
      return .list (Value.place selection.order vs (selection.blank fields.length))) := by
  rw [← readWith_read, Schema.readWith]
  simp only [readNth_read]

theorem read_sum (names : List String) (alternatives : List (Schema ι Empty)) :
    defs.read (.sum names alternatives) = (do
      let tag ← takeTag alternatives.length
      let w ← defs.readAt alternatives tag
      return .tagged tag w) := by
  rw [← readWith_read, Schema.readWith]
  simp only [readNth_read]

end Scale.Definitions
