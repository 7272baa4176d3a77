import Nginz.Scanner
import Nginz.Chat.RoomMaster

/-! The list of rooms that the master describes for a worker, and that it fits into the buffer
it is written to. -/
namespace Nginz
open Words

section Describe
variable (L : TxtLib) (toInt : Bytes → Int32) (db : Bytes → Option Bytes)

/-- `chat_room_get_user_count`, with what `aroop_txt_to_int` makes of a text. -/
def chatRoomGetUserCount (myRoom : Bytes) : Int32 :=
  if myRoom = [] then -1
  else
    let countstr := (db (roomUserKey L myRoom)).getD []
    toInt (compose L 32 [countstr])

def chatRoomDescribeHelper (myRoom : Bytes) (roomInfo : AroopTxt) : AroopTxt :=
  let count := chatRoomGetUserCount L toInt db myRoom
  let count := if count < 0 then 0 else count
  let roomInfo := roomInfo.concatChar L 9
  let roomInfo := roomInfo.concatChar L 42
  let roomInfo := roomInfo.concatChar L 32
  let roomInfo := roomInfo.concat L myRoom
  let roomInfo :=
    if count ≠ 0 then
      let countStr := compose L 32 [lit " (" ++ decimal count.toInt ++ lit ")"]
      roomInfo.concat L countStr
    else roomInfo
  roomInfo.concatChar L 10

/-- The loop of `chat_room_describe`, which ends with the tokens. -/
def describeRooms (roomstr : Bytes) (roomInfo : AroopTxt) : AroopTxt :=
  if _h : (scannerCall roomstr).token = [] then roomInfo
  else
    describeRooms (scannerCall roomstr).rest
      (chatRoomDescribeHelper L toInt db (scannerCall roomstr).token roomInfo)
termination_by roomstr.length
decreasing_by exact scannerCall_rest_lt _h

def chatRoomDescribe (roomstr : Bytes) (roomInfo : AroopTxt) : AroopTxt :=
  let roomInfo := roomInfo.concat L (lit "Active rooms are:\n")
  let roomInfo := describeRooms L toInt db roomstr roomInfo
  roomInfo.concat L (lit "end of list.\n")

/-- The size of the buffer for the description of a text of `len` bytes. -/
def roomInfoSize (len : ℕ) : ℕ := len * 32 + 64

/-- `len` of `on_async_room_call_master`, the `int` that is computed for the size. -/
def roomInfoLen (len : ℕ) : Int32 := Int32.ofNat len * 32 + 64

theorem roomInfoLen_toInt {len : ℕ} (h : len * 32 + 64 < 2 ^ 31) :
    (roomInfoLen len).toInt = roomInfoSize len := by
  have hlen : roomInfoLen len = Int32.ofNat (roomInfoSize len) := by
    unfold roomInfoLen roomInfoSize
    rw [Int32.ofNat_add, Int32.ofNat_mul]
    rfl
  rw [hlen]
  exact Int32.toInt_ofNat_of_lt h

/-- `room_info` as `on_async_room_call_master` sends it. -/
def roomInfoOf : AroopTxt :=
  let info := (db (lit "rooms")).getD []
  if info ≠ [] then
    chatRoomDescribe L toInt db info (.stackbuffer L (roomInfoSize info.length))
  else .empty

/-- `on_async_room_call_master`. -/
def onAsyncRoomCallMaster (pid : ℤ) (bin : AroopTxt) (m : Master) : Option Master := do
  let srcpid ← unpackedInt bin 0
  let cbToken ← unpackedInt bin 2
  let cbHook ← unpackedString bin 3
  let roomInfo := roomInfoOf L toInt m.globalDb
  let out ← asyncPmReplyWorker L pid srcpid cbToken cbHook 1 [some roomInfo.content, none]
  some { m with sent := m.sent ++ out }

/-! ### The description -/

/-- The count that a room's line shows, and nothing for a room without users. -/
def countShown (myRoom : Bytes) : Bytes :=
  let count := (chatRoomGetUserCount L toInt db myRoom).toInt
  if 0 < count then lit " (" ++ decimal count ++ lit ")" else []

/-- The line of a room. -/
def roomLine (myRoom : Bytes) : Bytes :=
  lit "\t* " ++ myRoom ++ countShown L toInt db myRoom ++ lit "\n"

/-- The whole description, with a line for each word. -/
def roomListing (roomstr : Bytes) : Bytes :=
  lit "Active rooms are:\n" ++ (words isSeparator roomstr).flatMap (roomLine L toInt db) ++
    lit "end of list.\n"

/-- A count is an int, which has ten digits at most. -/
theorem countShown_length_le (myRoom : Bytes) : (countShown L toInt db myRoom).length ≤ 13 := by
  unfold countShown
  dsimp only
  split
  · rename_i hpos
    have hdigits := decimal_length_le hpos (Int32.toInt_lt _)
    have hopen : (lit " (").length = 2 := by decide
    have hclose : (lit ")").length = 1 := by decide
    rw [List.length_append, List.length_append, hopen, hclose]
    omega
  · simp

theorem roomLine_length_le (myRoom : Bytes) :
    (roomLine L toInt db myRoom).length ≤ myRoom.length + 17 := by
  have hcount := countShown_length_le L toInt db myRoom
  have hbullet : (lit "\t* ").length = 3 := by decide
  have hend : (lit "\n").length = 1 := by decide
  unfold roomLine
  simp only [List.length_append, hbullet, hend]
  omega

/-- A word has a byte at least, so the lines have at most eighteen bytes for each byte of the
words. -/
theorem roomLines_length_le (rooms : List Bytes) (h : ∀ room ∈ rooms, room ≠ []) :
    (rooms.flatMap (roomLine L toInt db)).length ≤ 18 * rooms.flatten.length := by
  induction rooms with
  | nil => simp
  | cons room rooms ih =>
    obtain ⟨hroom, hrooms⟩ := List.forall_mem_cons.mp h
    have hline := roomLine_length_le L toInt db room
    have hpos := List.length_pos_iff.mpr hroom
    have hrest := ih hrooms
    rw [List.flatMap_cons, List.flatten_cons, List.length_append, List.length_append]
    omega

theorem roomListing_length_le (roomstr : Bytes) :
    (roomListing L toInt db roomstr).length ≤ 18 * roomstr.length + 31 := by
  have hlines := roomLines_length_le L toInt db (words isSeparator roomstr)
    fun _ h => ne_nil_of_mem_words h
  have hwords : (words isSeparator roomstr).flatten.length ≤ roomstr.length :=
    words_flatten_length_le roomstr
  have hhead : (lit "Active rooms are:\n").length = 18 := by decide
  have htail : (lit "end of list.\n").length = 13 := by decide
  unfold roomListing
  rw [List.length_append, List.length_append, hhead, htail]
  omega

/-! ### What is appended -/

/-- The texts that are appended for a room. -/
def roomParts (myRoom : Bytes) : List Bytes :=
  [[9], [42], [32], myRoom, countShown L toInt db myRoom, [10]]

theorem roomParts_flatten (myRoom : Bytes) :
    (roomParts L toInt db myRoom).flatten = roomLine L toInt db myRoom := by
  have hbullet : lit "\t* " = [9, 42, 32] := by decide
  have hend : lit "\n" = [10] := by decide
  unfold roomParts roomLine
  rw [hbullet, hend]
  simp

/-- An append of nothing changes nothing. -/
theorem concat_nil (t : AroopTxt) : t.concat L [] = t := by
  have hspill : L.spill (t.capacity - t.len) [] = [] := List.prefix_nil.mp (L.spill_prefix _ _)
  unfold AroopTxt.concat
  rw [hspill]
  simp [writeAt]

/-- The count in its buffer of 32 bytes is whole. -/
theorem countStr_fits {myRoom : Bytes}
    (h : 0 < (chatRoomGetUserCount L toInt db myRoom).toInt) :
    compose L 32 [lit " (" ++ decimal (chatRoomGetUserCount L toInt db myRoom).toInt ++ lit ")"] =
      countShown L toInt db myRoom := by
  have hshown := countShown_length_le L toInt db myRoom
  unfold countShown at hshown ⊢
  dsimp only at hshown ⊢
  rw [if_pos h] at hshown ⊢
  rw [compose_fits L (by simpa using hshown.trans (by decide))]
  simp

/-- A count that is not positive is shown as none. -/
theorem count_fixup (count : Int32) :
    (if count < 0 then 0 else count) = if 0 < count.toInt then count else 0 := by
  have hneg : count < 0 ↔ count.toInt < 0 := Int32.lt_iff_toInt_lt
  have hzero : count = 0 ↔ count.toInt = 0 := Int32.toInt_inj.symm
  split_ifs with hlt hpos hpos
  · exact absurd (hneg.mp hlt) hpos.not_gt
  · rfl
  · rfl
  · exact hzero.mpr (le_antisymm (not_lt.mp hpos) (not_lt.mp (mt hneg.mpr hlt)))

theorem chatRoomDescribeHelper_eq (myRoom : Bytes) (t : AroopTxt) :
    chatRoomDescribeHelper L toInt db myRoom t =
      (roomParts L toInt db myRoom).foldl (fun t part => t.concat L part) t := by
  unfold chatRoomDescribeHelper roomParts
  simp only [List.foldl_cons, List.foldl_nil, AroopTxt.concatChar, count_fixup]
  congr 1
  by_cases hpos : 0 < (chatRoomGetUserCount L toInt db myRoom).toInt
  · have hne : chatRoomGetUserCount L toInt db myRoom ≠ 0 := by
      intro hzero
      rw [hzero] at hpos
      exact absurd hpos (by decide)
    rw [if_pos hpos, if_pos hne, countStr_fits L toInt db hpos]
  · have hnone : countShown L toInt db myRoom = [] := if_neg hpos
    rw [if_neg hpos, if_neg (not_not.mpr rfl), hnone, concat_nil]

theorem describeRooms_eq (roomstr : Bytes) (t : AroopTxt) :
    describeRooms L toInt db roomstr t =
      ((words isSeparator roomstr).flatMap (roomParts L toInt db)).foldl
        (fun t part => t.concat L part) t := by
  fun_induction describeRooms L toInt db roomstr t with
  | case1 roomstr t hlast => rw [(scannerCall_last hlast).1, List.flatMap_nil, List.foldl_nil]
  | case2 roomstr t hword ih =>
    rw [ih, chatRoomDescribeHelper_eq, scannerCall_word hword, List.flatMap_cons,
      List.foldl_append]

/-- The description in a fresh buffer is put together from its parts. -/
theorem chatRoomDescribe_content (roomstr : Bytes) (size : ℕ) :
    (chatRoomDescribe L toInt db roomstr (.stackbuffer L size)).content =
      compose L size (lit "Active rooms are:\n" ::
        ((words isSeparator roomstr).flatMap (roomParts L toInt db) ++
          [lit "end of list.\n"])) := by
  unfold chatRoomDescribe compose
  dsimp only
  rw [describeRooms_eq, List.foldl_cons, List.foldl_append]
  rfl

/-- A buffer that has room for the whole description gets it. -/
theorem chatRoomDescribe_whole {roomstr : Bytes} {size : ℕ}
    (h : (roomListing L toInt db roomstr).length ≤ size) :
    (chatRoomDescribe L toInt db roomstr (.stackbuffer L size)).content =
      roomListing L toInt db roomstr := by
  have hparts : (lit "Active rooms are:\n" :: ((words isSeparator roomstr).flatMap
      (roomParts L toInt db) ++ [lit "end of list.\n"])).flatten =
        roomListing L toInt db roomstr := by
    unfold roomListing
    rw [List.flatten_cons, List.flatten_append, List.flatten_singleton, List.append_assoc]
    congr 2
    rw [← List.flatMap_id, List.flatMap_assoc]
    simp only [List.flatMap_id, roomParts_flatten]
  rw [chatRoomDescribe_content, compose_fits L (hparts ▸ h), hparts]

/-- For every text of rooms and whatever is stored as their counts: the description has
32 bytes for each byte of the text and 64 more at most, and no line of it is cut. The `int`
of the source is that size as long as it does not overflow. -/
theorem room_listing_fits (roomstr : Bytes) :
    (chatRoomDescribe L toInt db roomstr (.stackbuffer L (roomInfoSize roomstr.length))).content =
        roomListing L toInt db roomstr ∧
      (roomListing L toInt db roomstr).length ≤ 32 * roomstr.length + 64 ∧
      (roomstr.length * 32 + 64 < 2 ^ 31 →
        (roomInfoLen roomstr.length).toInt = roomInfoSize roomstr.length) := by
  have hbound := roomListing_length_le L toInt db roomstr
  have hsize : (roomListing L toInt db roomstr).length ≤ roomInfoSize roomstr.length := by
    unfold roomInfoSize
    omega
  exact ⟨chatRoomDescribe_whole L toInt db hsize, by omega, roomInfoLen_toInt⟩

/-- A worker that asks for the rooms is replied the whole listing. -/
theorem room_call_listing (pid : ℤ) (bin : AroopTxt) {m : Master} {roomstr : Bytes}
    (hrooms : m.globalDb (lit "rooms") = some roomstr) (hne : roomstr ≠ []) :
    onAsyncRoomCallMaster L toInt pid bin m = (do
      let srcpid ← unpackedInt bin 0
      let cbToken ← unpackedInt bin 2
      let cbHook ← unpackedString bin 3
      let out ← asyncPmReplyWorker L pid srcpid cbToken cbHook 1
        [some (roomListing L toInt m.globalDb roomstr), none]
      some { m with sent := m.sent ++ out }) := by
  have hbound := roomListing_length_le L toInt m.globalDb roomstr
  have hsize : (roomListing L toInt m.globalDb roomstr).length ≤ roomInfoSize roomstr.length := by
    unfold roomInfoSize
    omega
  have hinfo : (roomInfoOf L toInt m.globalDb).content =
      roomListing L toInt m.globalDb roomstr := by
    unfold roomInfoOf
    rw [hrooms]
    exact (congrArg AroopTxt.content (if_pos hne)).trans
      (chatRoomDescribe_whole L toInt m.globalDb hsize)
  unfold onAsyncRoomCallMaster
  dsimp only
  rw [hinfo]

end Describe
end Nginz
