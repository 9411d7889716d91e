import IndicatorNetwork.MenuMerger
import IndicatorNetwork.MenuMergerRuns
import IndicatorNetwork.Dispatch
import IndicatorNetwork.DispatchQueue
import IndicatorNetwork.DispatchRuns
import IndicatorNetwork.DispatchWaiting
import IndicatorNetwork.StdMap
import IndicatorNetwork.Variant
import IndicatorNetwork.VariantRoundTrip
import IndicatorNetwork.VariantReencode
import IndicatorNetwork.MatchResult
import IndicatorNetwork.Factory
import IndicatorNetwork.RandomMac
