import Nginz.Chat.NameAudit

/-! Unique names: at most one connection of all workers is logged in under a name, as long
as no lazy cleanup finalizes a connection that was handed off. -/
namespace Nginz
open Transition

namespace ChatSystem
variable {ι : Type*}

/-- Workers that just started ask for their rooms only. -/
theorem start_audited [Fintype ι] (L : TxtLib) (pid : ι → ℤ) {myRooms : ι → List Bytes}
    (hrooms : ∀ i, myRooms i ⊆ defaultRooms) (clock : ι → ℕ) :
    Audited L (.start L pid myRooms clock) := by
  have hrequest {i : ι} {r : DbRequest} (hr : r ∈ (start L pid myRooms clock).toMaster i) :
      ∃ room, ValidRoom room ∧
        r = ⟨pid i, -1, nullHook, lit "room/pid/" ++ room, .setIfNull (decimal (pid i))⟩ := by
    obtain ⟨c, hc, hrc⟩ := List.mem_flatMap.mp hr
    obtain ⟨room, hroom, rfl⟩ := start_calls L (pid i) (myRooms i) (clock i) c hc
    have hvalid := defaultRooms_valid room (hrooms i hroom)
    have hshort := hvalid.short
    have hkey : roomPidKey L (compose L 128 [room]) = lit "room/pid/" ++ room := by
      rw [roomName_fits L (by omega), roomPidKey_fits L (by omega)]
    refine ⟨room, hvalid, ?_⟩
    rw [List.mem_singleton.mp hrc, hkey]
    rfl
  refine ⟨⟨fun i => ?_, fun i r hr => ?_, ?_, ?_, ?_⟩, fun name hname => ?_⟩
  · refine ⟨start_serving L True (pid i) (myRooms i) (clock i), fun t c hc => ?_⟩
    have hchats : ((start L pid myRooms clock).workers i).chats = fun _ => none :=
      congrArg Worker.chats (start_keeps L (pid i) (myRooms i) (clock i))
    rw [hchats] at hc
    exact absurd hc (by simp)
  · obtain ⟨room, hvalid, rfl⟩ := hrequest hr
    refine chatRequest_silent (nameRequest_of_room ?_) rfl fun other hkey => Or.inr ?_
    · exact (show lit "room/" <+: lit "room/pid/" by decide).trans (List.prefix_append _ room)
    · obtain rfl := List.append_cancel_left hkey
      exact hvalid
  · exact fun i r hr => absurd hr List.not_mem_nil
  · exact fun room hroom => absurd hroom (by simp [start])
  · exact fun o ho => absurd ho List.not_mem_nil
  · have hzero (i : ι) : (start L pid myRooms clock).claims name i = 0 := by
      have hnobody : ((start L pid myRooms clock).workers i).namesakes name = ∅ := by
        refine Set.eq_empty_iff_forall_notMem.mpr ?_
        rintro t ⟨c, hc, -⟩
        have hchats : ((start L pid myRooms clock).workers i).chats = fun _ => none :=
          congrArg Worker.chats (start_keeps L (pid i) (myRooms i) (clock i))
        rw [hchats] at hc
        exact absurd hc (by simp)
      have hnone : removals ((start L pid myRooms clock).toMaster i) name = 0 := by
        unfold removals
        rw [List.countP_eq_zero]
        intro r hr
        obtain ⟨room, -, rfl⟩ := hrequest hr
        simp [DbRequest.keyOp]
      unfold claims
      rw [hnobody, hnone]
      simp [start, grants]
    have htotal : (start L pid myRooms clock).total name = 0 := by
      unfold total
      rw [Finset.sum_eq_zero fun i _ => hzero i]
      rfl
    rw [htotal]
    exact zero_le

end ChatSystem

/-- In every run in which clients use the public commands only and no lazy cleanup finalizes
a connection that was handed off, every name is logged in at one place at most, and it is
registered as long as it is. -/
theorem names_unique {ι : Type*} [Fintype ι] [DecidableEq ι] (L : TxtLib)
    (hcap : L.room 255 < 65536)
    (hcap' : L.room nginzMaxBinaryMsgLen < 65536) (W : ι → World) (hW : ∀ i, (W i).txt = L)
    (pid : ι → ℤ) (myRooms : ι → List Bytes) (hrooms : ∀ i, myRooms i ⊆ defaultRooms)
    (clock : ι → ℕ)
    (as : List (ChatSystem.Action ι)) (hpublic : ∀ a ∈ as, ChatSystem.PublicCommands L a)
    (h : Along (ChatSystem.step L W) ChatSystem.SparesHandedOff (.start L pid myRooms clock) as) :
    (as.foldl (ChatSystem.step L W) (.start L pid myRooms clock)).UniqueNames := by
  have hend : ChatSystem.Audited L (as.foldl (ChatSystem.step L W) (.start L pid myRooms clock)) :=
    along_invariant (P := ChatSystem.Audited L)
      (fun _ _ hs ha => hs.step hcap hcap' hW ha.1 ha.2)
        (ChatSystem.start_audited L pid hrooms clock)
      (along_and hpublic h)
  exact hend.uniqueNames

/-- Two workers; the first one hosts the first two rooms, and the second one the third. -/
def twoWorkers : ChatSystem (Fin 2) :=
  .start .cutting ![4712, 4713] ![[lit "ONE", lit "TWO"], [lit "TWO", lit "THREE"]] ![1, 1]

/-- A client logs in at the first worker and joins the room of the second one. -/
def handedOver : List (ChatSystem.Action (Fin 2)) :=
  [.serve 0, .serve 0, .serve 1, .serve 1, .accept 4712 1, .receive 0 0 5 0 (List.replicate 128 0),
    .event 0 (.clientData 5 0 (.data (lit "bob\n"))), .serve 0, .deliver 0,
    .event 0 (.clientData 5 0 (.data (lit "/join THREE\n"))), .serve 0, .deliver 0,
    .receive 1 0 5 0 (List.replicate 128 0)]

theorem names_unique_handedOver :
    (handedOver.foldl (ChatSystem.step .cutting fun _ => .calm) twoWorkers).UniqueNames :=
  names_unique .cutting (by decide) (by decide) (fun _ => .calm) (fun _ => rfl) ![4712, 4713]
    ![[lit "ONE", lit "TWO"], [lit "TWO", lit "THREE"]] (by decide +kernel) ![1, 1] handedOver
    (by decide +kernel)
    ⟨trivial, trivial, trivial, trivial, trivial, trivial, trivial, trivial, trivial, trivial,
      trivial, trivial, trivial, trivial⟩

/-- The lazy cleanup at the first worker comes after the hand-off, and another client asks
for the name. -/
def rivalLogin : List (ChatSystem.Action (Fin 2)) :=
  [.event 0 .cleanup, .serve 0, .accept 4712 2, .receive 0 0 5 0 (List.replicate 128 0),
    .event 0 (.clientData 5 0 (.data (lit "bob\n"))), .serve 0, .deliver 0]

/-- The cleanup logs the name off that the second worker serves, and the rival gets it. -/
theorem cleanup_frees_served_name :
    (∀ a ∈ handedOver ++ rivalLogin, ChatSystem.PublicCommands .cutting a) ∧
      ¬ ((handedOver ++ rivalLogin).foldl (ChatSystem.step .cutting fun _ => .calm)
        twoWorkers).UniqueNames := by
  refine ⟨by decide +kernel, fun h => ?_⟩
  have hplace := h.one (lit "bob") (by decide) 0 0 1 0 (by decide +kernel) (by decide +kernel)
  exact absurd hplace.1 (by decide)

end Nginz
