import Mathlib.Tactic.Common

/- What the two CTP clients share: error_parser.hpp's tables of return codes and reasons,
   and the connection that the API keeps. -/
namespace Errconfig

def DISCON_ERRORS : List (Int × String) := [
  (0x1001, "网络读失败"),
  (0x1002, "网络写失败"),
  (0x2001, "接收心跳超时"),
  (0x2002, "发送心跳失败"),
  (0x2003, "收到错误报文")]

def REQ_ERRORS : List (Int × String) := [
  (-1, "网络连接失败"),
  (-2, "未处理请求超过许可数"),
  (-3, "每秒发送请求数超过许可数")]

/-- `at` of a std::map; it throws where there is no such key. -/
def lookup (table : List (Int × String)) (key : Int) : Option String :=
  (table.find? fun x => x.1 = key).map Prod.snd

end Errconfig

namespace Ctp

/-- The connection of an API object: none before Init; from then on, and again after
    OnFrontDisconnected, the API connects by itself and calls OnFrontConnected. -/
inductive Front where
  | closed
  | connecting
  | connected
  deriving DecidableEq

def Front.owed : Front → Nat
  | .connecting => 1
  | _ => 0

end Ctp
