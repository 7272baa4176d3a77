import Nginz.Chat.MemberActions

/-! The requests of clients keep the invariants of the rooms. -/
namespace Nginz
namespace RoomInvariant
variable {W : World} {P : Worker → Prop} (hP : RoomInvariant W P) {w : Worker}
include hP

theorem send (h : P w) (t : ℕ) (content : Bytes) : P (defaultChatSend W w t content) :=
  hP.sends h (onlySends_send W w t content)

theorem assert (h : P w) (b : Bool) : P (w.assert b) := hP.same h rfl rfl rfl rfl

theorem welcome (h : P w) (t : ℕ) : P (chatWelcomePlug W w t) := by
  unfold chatWelcomePlug
  split
  · exact h
  · have ha := hP.assert h ((w.chat t).state = .connected)
    apply hP.send
    exact hP.setChat ha t fun c => rfl

theorem login (h : P w) (t : ℕ) (answer : Bytes) : P (onAsyncchatLogin W w t answer) := by
  unfold onAsyncchatLogin
  split
  · exact h
  have ha := hP.assert h ((w.chat t).state = .connected)
  dsimp only
  apply hP.sendGreeting
  split
  · exact hP.same ha rfl rfl rfl rfl
  rename_i hname
  split
  · exact hP.same ha rfl rfl rfl rfl
  unfold asyncTryLogin
  rw [if_neg hname]
  apply hP.call ha
  apply otherCall_user (scannerNextToken answer).1
  intro q hq
  simp only [DbCall.requests, swapOp, Option.toList_some, List.map_cons, List.map_nil,
    List.mem_singleton] at hq
  rw [hq]

theorem getPid (h : P w) (room : Bytes) (t : ℤ) (hook : Bytes) :
    P (chatRoomGetPid W w room t hook).1 := by
  unfold chatRoomGetPid
  split
  · exact h
  · apply hP.call h
    intro q hq other he
    obtain rfl := List.mem_singleton.mp hq
    exact roomPidKey_ne_roomUserKey W.txt room other he

theorem joinPlug (h : P w) (t : ℕ) (request : Bytes) : P (chatJoinPlug W w t request) := by
  unfold chatJoinPlug
  split
  · exact h
  split
  · exact hP.send h t _
  dsimp only
  split
  · exact hP.send h t _
  have hget := hP.getPid h (scannerNextToken request).1 t onAsyncchatRoomPidName
  split
  · exact hP.send hget t _
  · exact hP.send hget t _

theorem leavePlug (h : P w) (t : ℕ) : P (chatLeavePlug W w t) := by
  unfold chatLeavePlug
  split
  · exact h
  · exact hP.assert (hP.leave h t) _

theorem pm (h : P w) (t : ℕ) (request : Bytes) : P (chatPrivateMessagePlug W w t request) := by
  unfold chatPrivateMessagePlug
  split
  · exact h
  dsimp only
  split
  · exact h
  · exact hP.sends h (onlySends_private W w t _ _)

theorem bridge (h : P w) (t : ℕ) (space request : Bytes) :
    P (pluginBridgeCall W w t space request).1 := by
  unfold pluginBridgeCall
  split
  · exact hP.welcome h t
  split
  · exact hP.hiddenjoin h t request
  split
  · exact hP.joinPlug h t request
  split
  · exact hP.leavePlug h t
  split
  · exact hP.quit h t
  split
  · exact hP.pm h t request
  split
  · dsimp only
    split
    · exact hP.send h t _
    · exact h
  · exact h

theorem cannotProcess (h : P w) (t : ℕ) :
    P (if (w.chat t).state.quit || (w.chat t).state.softQuit then w
      else defaultChatSend W w t (lit "Cannot process the request\n")) := by
  split
  · exact h
  · exact hP.send h t _

theorem command (h : P w) (t : ℕ) (request : Bytes) : P (onCommand W w t request).1 := by
  unfold onCommand
  split
  · exact h
  · exact h
  · exact hP.bridge h t _ _

theorem answer (h : P w) (t : ℕ) (request : Bytes) : P (answerRequest W w t request) := by
  unfold answerRequest
  dsimp only
  split
  · split
    · exact hP.command h t request
    · exact hP.cannotProcess (hP.command h t request) t
  · split
    · exact hP.login h t request
    · exact hP.sends h (onlySends_callback W w t request)
    · exact hP.cannotProcess h t

theorem zombieAdd (h : P w) (t : ℕ) : P (chatZombieAdd w t) := by
  unfold chatZombieAdd
  split
  · exact h
  have hmark : P ((w.assert ((w.chat t).quitedAt ≠ 0)).setChat t fun c =>
      { c with state := { c.state with zombie := true } }) :=
    hP.setChat (hP.assert h _) t fun c => rfl
  have hlist : P { (w.assert ((w.chat t).quitedAt ≠ 0)).setChat t fun c =>
      { c with state := { c.state with zombie := true } } with zombieList :=
        w.zombieList ++ [t] } :=
    hP.same hmark rfl rfl rfl rfl
  exact hP.setChat hlist t fun c => rfl

theorem closeClient (h : P w) (t : ℕ) : P (closeClient W w t) := by
  unfold Nginz.closeClient
  exact hP.zombieAdd (hP.close h t).1 t

end RoomInvariant
end Nginz
