import NetSum.UserspaceAgg.EmissionTheorems
import NetSum.UserspaceAgg.DeliveryTheorems
import NetSum.UserspaceAgg.CompletionTheorems
import NetSum.UserspaceAgg.QuotaTheorems
import NetSum.UserspaceAgg.AtomicityTheorems
import NetSum.UserspaceAgg.ReaperTheorems
import NetSum.UserspaceAgg.IsolationTheorems
import NetSum.UserspaceAgg.BufferTheorems
import NetSum.UserspaceAgg.FiniteMapTheorems
import NetSum.UserspaceAgg.BookkeepingTheorems
import NetSum.UserspaceAgg.RefinementTheorems
import NetSum.XdpAgg.RefinementTheorems
import NetSum.XdpAgg.IsolationTheorems
import NetSum.XdpAgg.BookkeepingTheorems
import NetSum.XdpAgg.OrderTheorems
import NetSum.XdpAgg.DisturbanceTheorems
import NetSum.XdpAgg.BoundsTheorems
import NetSum.XdpAgg.EffectTheorems
import NetSum.XdpAgg.ChecksumTheorems
import NetSum.ParamServer.ResultTheorems
import NetSum.ParamServer.BufferTheorems
import NetSum.AdmissionTheorems
import NetSum.TransmissionTheorems
import NetSum.ParityTheorems
import NetSum.PipelineTheorems
import NetSum.FleetTheorems
import NetSum.XdpPipelineTheorems
import NetSum.XdpAgg.CpuAloneTheorems
import NetSum.XdpAgg.CpuEmissionTheorems
import NetSum.XdpAgg.CpuQuotaTheorems
import NetSum.XdpAgg.CpuOrderTheorems
import NetSum.XdpAgg.StatTheorems
import NetSum.UserspaceAgg.FixedPointTheorems
import NetSum.WireTheorems
import NetSum.FairnessTheorems
import NetSum.LockstepTheorems
import NetSum.UserspaceAgg.HomeTheorems
import NetSum.AggPipelineTheorems
import NetSum.UserspaceAgg.StatsTheorems
import NetSum.UserspaceAgg.StarvationTheorems
import NetSum.UserspaceAgg.TimelinessTheorems
import NetSum.UserspaceAgg.ConservationTheorems
import NetSum.StatsLogTheorems
