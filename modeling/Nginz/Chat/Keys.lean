import Nginz.Chat.Factory

/-! The keys of the chat in the store: which texts they are, and that users, counters and
hosts of rooms never share one. -/
namespace Nginz

section Compose
variable (L : TxtLib)

theorem foldl_concat (parts : List Bytes) {t : AroopTxt} (ht : t.WellFormed) :
    (parts.foldl (fun t part => t.concat L part) t).WellFormed ∧
      (parts.foldl (fun t part => t.concat L part) t).capacity = t.capacity ∧
      t.content <+: (parts.foldl (fun t part => t.concat L part) t).content := by
  induction parts generalizing t with
  | nil => exact ⟨ht, rfl, List.prefix_rfl⟩
  | cons part parts ih =>
    obtain ⟨hw, hc, hp⟩ := ih (t.concat_wellFormed L (x := part) ht)
    refine ⟨hw, hc.trans (t.concat_capacity L ht), List.IsPrefix.trans ?_ hp⟩
    rw [t.concat_content_spill L ht]
    exact List.prefix_append _ _

theorem foldl_concat_fits {parts : List Bytes} {t : AroopTxt} (ht : t.WellFormed)
    (hf : t.len + parts.flatten.length ≤ t.capacity) :
    (parts.foldl (fun t part => t.concat L part) t).content = t.content ++ parts.flatten := by
  induction parts generalizing t with
  | nil => simp
  | cons part parts ih =>
    rw [List.flatten_cons, List.length_append] at hf
    have hpart : t.len + part.length ≤ t.capacity := by omega
    have hrest : (t.concat L part).len + parts.flatten.length ≤ (t.concat L part).capacity := by
      rw [t.concat_len L hpart, t.concat_capacity L ht]
      omega
    rw [List.foldl_cons, ih (t.concat_wellFormed L ht) hrest, t.concat_content L ht hpart,
      List.flatten_cons, List.append_assoc]

/-- Parts that fit are put together whole. -/
theorem compose_fits {n : ℕ} {parts : List Bytes} (hf : parts.flatten.length ≤ n) :
    compose L n parts = parts.flatten := by
  have hroom : parts.flatten.length ≤ L.room n := hf.trans (L.le_room n)
  unfold compose AroopTxt.stackbuffer
  rw [foldl_concat_fits L (AroopTxt.buffer_wellFormed _) (by simpa using hroom)]
  simp

/-- The first part stays whatever happens to the others. -/
theorem compose_head {n : ℕ} {part : Bytes} (parts : List Bytes) (hf : part.length ≤ n) :
    part <+: compose L n (part :: parts) := by
  have hroom : part.length ≤ L.room n := hf.trans (L.le_room n)
  have hw := AroopTxt.buffer_wellFormed (L.room n)
  have hone : ((AroopTxt.buffer (L.room n)).concat L part).content = part := by
    rw [AroopTxt.concat_content L hw (by simpa using hroom)]
    simp
  unfold compose AroopTxt.stackbuffer
  rw [List.foldl_cons]
  nth_rewrite 1 [← hone]
  exact (foldl_concat L parts (AroopTxt.concat_wellFormed L hw)).2.2

end Compose

section Keys
variable (L : TxtLib)

/-- Two texts that start differently differ. -/
theorem ne_of_heads {p q x y : Bytes} (hp : p <+: x) (hq : q <+: y) (hpq : ¬ p <+: q)
    (hqp : ¬ q <+: p) : x ≠ y := by
  rintro rfl
  rcases List.prefix_or_prefix_of_prefix hp hq with h | h
  · exact hpq h
  · exact hqp h

theorem nameKey_head (name : Bytes) : lit "user/" <+: buildNameKey L name :=
  compose_head L _ (by decide)

theorem roomUserKey_head (room : Bytes) : lit "room/user/" <+: roomUserKey L room :=
  compose_head L _ (by decide)

theorem roomPidKey_head (room : Bytes) : lit "room/pid/" <+: roomPidKey L room :=
  compose_head L _ (by decide)

theorem nameKey_ne_roomUserKey (name room : Bytes) : buildNameKey L name ≠ roomUserKey L room :=
  ne_of_heads (nameKey_head L name) (roomUserKey_head L room) (by decide) (by decide)

theorem roomPidKey_ne_roomUserKey (room other : Bytes) :
    roomPidKey L room ≠ roomUserKey L other :=
  ne_of_heads (roomPidKey_head L room) (roomUserKey_head L other) (by decide) (by decide)

/-- A room whose name is as short as the default ones has a key of its own. -/
theorem roomName_fits {room : Bytes} (h : room.length ≤ 128) : compose L 128 [room] = room := by
  rw [compose_fits L (by simpa using h)]
  simp

theorem roomPidKey_fits {room : Bytes} (h : room.length ≤ 119) :
    roomPidKey L room = lit "room/pid/" ++ room := by
  have hlit : (lit "room/pid/").length = 9 := by decide
  unfold roomPidKey
  rw [compose_fits L (by simp [hlit]; omega)]
  simp

theorem roomUserKey_fits {room : Bytes} (h : room.length < 32) :
    roomUserKey L room = lit "room/user/" ++ room := by
  have hl : (lit "room/user/").length = 10 := by decide
  unfold roomUserKey
  rw [compose_fits L (by simp [hl]; omega)]
  simp

theorem roomUserKey_injective {room other : Bytes} (h : room.length < 32) (h' : other.length < 32)
    (he : roomUserKey L room = roomUserKey L other) : room = other := by
  rw [roomUserKey_fits L h, roomUserKey_fits L h'] at he
  exact List.append_cancel_left he

end Keys
end Nginz
