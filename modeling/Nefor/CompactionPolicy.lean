import Nefor.Lua.Table
import Nefor.ConversationManager.Domain

/-! The replay of accepted facts by the compaction policy, `reduce` of `compaction-policy`. -/
namespace Nefor.CompactionPolicy
open Nefor.Lua Nefor.ConversationManager

structure Notice where
  noticeId : LuaValue
  epochId : LuaValue
  milestonePercent : LuaValue
  messageId : LuaValue
  provider : LuaValue
  model : LuaValue
  historyId : LuaValue
  requestIds : List LuaValue := []
  deriving Repr

/-- The state of one epoch. The outstanding notice is the very table that `notices` holds, so
its id stands for it. -/
structure State where
  epochId : LuaValue
  notices : Option (List (String × Notice)) := none
  outstanding : Option String := none
  deliveredNoticeId : LuaValue := .nil
  notifiedThrough : LuaValue := .nil
  deriving Repr

/-- `out.notices or {}`. -/
def State.noticeMap (s : State) : List (String × Notice) := s.notices.getD []

/-- `math.max` of two values that are known to be numbers. -/
def maxNum (a b : LuaValue) : LuaValue := if numLt a b then b else a

/-- `compatible(notice, scope)` for a notice that is there. -/
def compatible (notice : Notice) (scope : Fields) : Bool :=
  notice.provider.rawEq (scope.get "provider") && notice.model.rawEq (scope.get "model") &&
    notice.historyId.equal (scope.get "history_id")

def newNotice (fact : Fields) : Notice where
  noticeId := fact.get "notice_id"
  epochId := fact.get "epoch_id"
  milestonePercent := fact.get "milestone_percent"
  messageId := fact.get "message_id"
  provider := fact.get "provider"
  model := fact.get "model"
  historyId := fact.get "history_id"

/-- An inclusion lists its request once and raises the milestone that has been announced. -/
def includeFact (s : State) (id : String) (notice : Notice) (fact : Fields) : State :=
  let requestId := fact.get "request_id"
  let requestIds := if notice.requestIds.any (·.rawEq requestId) then notice.requestIds
    else notice.requestIds ++ [requestId]
  { s with
    notices := some (assign s.noticeMap id { notice with requestIds := requestIds })
    notifiedThrough := maxNum (s.notifiedThrough.orElse (.num (.int 0))) notice.milestonePercent }

/-- A delivery only counts for a request that included the notice. -/
def deliverFact (s : State) (id : String) (notice : Notice) (fact : Fields) : State :=
  if notice.requestIds.any (·.rawEq (fact.get "request_id")) then
    { s with
      deliveredNoticeId := fact.get "notice_id"
      outstanding := if s.outstanding = some id then none else s.outstanding }
  else s

/-- `M.reduce`. Facts name their notices by strings. -/
def reduce (s : State) (fact : Fields) : State :=
  let kind := fact.get "kind"
  if kind.rawEq (.str "conversation_created") then
    { epochId := fact.get "event_id", notices := some [] }
  else if kind.rawEq (.str "context_compaction_completed") then
    { epochId := fact.get "request_id", notices := some [] }
  else if !(fact.get "epoch_id").rawEq s.epochId then s
  else
    let s := { s with notices := some s.noticeMap }
    match fact.get "notice_id" with
    | .str id =>
      if kind.rawEq (.str "context_notice_appended") then
        { s with
          notices := some (assign s.noticeMap id (newNotice fact))
          outstanding := some id }
      else match s.noticeMap.lookup id with
        | none => s
        | some notice =>
          if !compatible notice fact then s
          else if kind.rawEq (.str "context_notice_included") then includeFact s id notice fact
          else if kind.rawEq (.str "context_notice_delivered") then deliverFact s id notice fact
          else s
    | _ => s

section Reduce
variable {s : State} {fact : Fields} {id : String} {notice : Notice}

theorem reduce_appended (hk : fact.get "kind" = .str "context_notice_appended")
    (he : (fact.get "epoch_id").rawEq s.epochId) (hid : fact.get "notice_id" = .str id) :
    reduce s fact = { s with
      notices := some (assign s.noticeMap id (newNotice fact))
      outstanding := some id } := by
  simp [reduce,hk,he,hid,LuaValue.str_rawEq,State.noticeMap]

theorem reduce_included (hk : fact.get "kind" = .str "context_notice_included")
    (he : (fact.get "epoch_id").rawEq s.epochId) (hid : fact.get "notice_id" = .str id)
    (hn : s.noticeMap.lookup id = some notice) (hc : compatible notice fact) :
    reduce s fact = includeFact { s with notices := some s.noticeMap } id notice fact := by
  have hm : ({ s with notices := some s.noticeMap } : State).noticeMap = s.noticeMap := rfl
  simp [reduce,hk,he,hid,hm,hn,hc,LuaValue.str_rawEq]

theorem reduce_delivered (hk : fact.get "kind" = .str "context_notice_delivered")
    (he : (fact.get "epoch_id").rawEq s.epochId) (hid : fact.get "notice_id" = .str id)
    (hn : s.noticeMap.lookup id = some notice) (hc : compatible notice fact) :
    reduce s fact = deliverFact { s with notices := some s.noticeMap } id notice fact := by
  have hm : ({ s with notices := some s.noticeMap } : State).noticeMap = s.noticeMap := rfl
  simp [reduce,hk,he,hid,hm,hn,hc,LuaValue.str_rawEq]

end Reduce

def Notice.toLua (n : Notice) : LuaValue := .record [("notice_id",n.noticeId),
  ("epoch_id",n.epochId),("milestone_percent",n.milestonePercent),("message_id",n.messageId),
  ("provider",n.provider),("model",n.model),("history_id",n.historyId),
  ("request_ids",.array n.requestIds)]

/-- `outstanding_notice`. -/
def State.outstandingNotice (s : State) : Option Notice :=
  s.outstanding.bind fun id => s.noticeMap.lookup id

def State.toLua (s : State) : LuaValue := .record [("epoch_id",s.epochId),
  ("notices",match s.notices with
    | none => .nil
    | some notices => .table false (notices.map fun n => (.str n.1,n.2.toLua))),
  ("outstanding_notice",match s.outstandingNotice with
    | none => .nil
    | some notice => notice.toLua),
  ("delivered_notice_id",s.deliveredNoticeId),("notified_through",s.notifiedThrough)]

end Nefor.CompactionPolicy
