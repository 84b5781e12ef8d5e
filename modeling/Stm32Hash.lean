import Stm32Hash.Basic
import Stm32Hash.Engine
import Stm32Hash.Context
import Stm32Hash.Driver
import Stm32Hash.SaveRestore
import Stm32Hash.DriverSpec
import Stm32Hash.FifoModel
import Stm32Hash.Streaming
import Stm32Hash.Session
import Stm32Hash.Twin
import Stm32Hash.Determined
import Stm32Hash.Isolation
import Stm32Hash.Refinement
import Stm32Hash.Frame
import Stm32Hash.Service
