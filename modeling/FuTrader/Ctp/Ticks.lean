import FuTrader.Parser.TimeStamp

/- CtpMdClient::OnRtnDepthMarketData: the tick of a depth market data record. -/
namespace CtpMd
open FuTrader (TickData cString)
open TickParser (TimeStampCalculator)

/-- The rest of CThostFtdcDepthMarketDataField that the callback reads. -/
structure DepthMarketData (F : Type) extends TickParser.DepthMarketData F where
  openPrice : F
  highestPrice : F
  lowestPrice : F
  closePrice : F
  preClosePrice : F
  preSettlementPrice : F
  settlementPrice : F
  preOpenInterest : F
  upperLimitPrice : F
  lowerLimitPrice : F
  averagePrice : F
  askPrice1 : F
  askPrice2 : F
  askPrice3 : F
  askPrice4 : F
  askPrice5 : F
  bidPrice1 : F
  bidPrice2 : F
  bidPrice3 : F
  bidPrice4 : F
  bidPrice5 : F
  askVolume1 : Int32
  askVolume2 : Int32
  askVolume3 : Int32
  askVolume4 : Int32
  askVolume5 : Int32
  bidVolume1 : Int32
  bidVolume2 : Int32
  bidVolume3 : Int32
  bidVolume4 : Int32
  bidVolume5 : Int32

section
variable {F : Type} (one : F) (days : Int → UInt32 → UInt32 → Int)

/-- The tick given to `_callback`, and `_stamp_calculator` after it; `one` is the double 1.0. -/
def onRtnDepthMarketData (c : TimeStampCalculator) (r : DepthMarketData F) :
    TickData F × TimeStampCalculator :=
  let stamp := c.compute days r.actionDay r.updateTime r.updateMillisec
  ({ symbol := r.symbol
     stamp := Int64.ofInt stamp.1
     «open» := r.openPrice
     high := r.highestPrice
     low := r.lowestPrice
     last := r.lastPrice
     limitDown := r.lowerLimitPrice
     limitUp := r.upperLimitPrice
     preclose := r.preClosePrice
     close := r.closePrice
     presettle := r.preSettlementPrice
     settle := r.settlementPrice
     preoi := r.preOpenInterest
     oi := r.openInterest
     volume := Int64.ofInt r.volume
     amount := r.turnover
     avgprice := r.averagePrice
     ap1 := r.askPrice1
     ap2 := r.askPrice2
     ap3 := r.askPrice3
     ap4 := r.askPrice4
     ap5 := r.askPrice5
     bp1 := r.bidPrice1
     bp2 := r.bidPrice2
     bp3 := r.bidPrice3
     bp4 := r.bidPrice4
     bp5 := r.bidPrice5
     av1 := r.askVolume1
     av2 := r.askVolume2
     av3 := r.askVolume3
     av4 := r.askVolume4
     av5 := r.askVolume5
     bv1 := r.bidVolume1
     bv2 := r.bidVolume2
     bv3 := r.bidVolume3
     bv4 := r.bidVolume4
     bv5 := r.bidVolume5
     adj := one }, stamp.2)

end

def instrument {F : Type} (r : DepthMarketData F) : List UInt8 := cString r.instrumentID.toList

theorem symbol_toList {F : Type} (r : DepthMarketData F) :
    r.symbol.toList = r.instrumentID.toList.take 15 ++ [0] := by
  apply List.ext_getElem
  · simp
  · intro i inside _
    simp only [TickParser.DepthMarketData.symbol, Vector.getElem_toList, Vector.getElem_ofFn]
    rw [List.getElem_append]
    by_cases copied : i < 15
    · have there : i < 81 := by omega
      simp [copied, there]
    · simp [copied]

/-- The symbol of a tick is the string of InstrumentID, cut after 15 bytes. The bytes behind
    the NUL are copied too, but they are behind it in the tick as well. -/
theorem cString_symbol {F : Type} (r : DepthMarketData F) :
    cString r.symbol.toList = (instrument r).take 15 := by
  rw [symbol_toList, instrument, cString, cString, List.take_takeWhile, List.takeWhile_append]
  split
  · rename_i whole
    rw [List.IsPrefix.eq_of_length (List.takeWhile_prefix _) whole]
    simp
  · rfl

end CtpMd
